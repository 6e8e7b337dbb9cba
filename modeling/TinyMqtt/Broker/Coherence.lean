import TinyMqtt.Broker.Change

/-!
Who holds a session. An open session is held by at most one of: an answer that
carries it, a close request for it, and a connection in session. Whoever holds
a session finds it open, in the session table, and on its own connection.

The invariant is stated over the fields that it reads, so that a step that
leaves these alone keeps it as it stands.
-/

namespace TinyMqtt

variable {π : Type}

theorem update_cases {α β : Type} [DecidableEq α] {f : α → Option β} {a a' : α} {b b' : β}
    (hupdate : Function.update f a (some b) a' = some b') :
    (a' = a ∧ b' = b) ∨ (a' ≠ a ∧ f a' = some b') := by
  by_cases ha : a' = a
  · subst ha
    rw [Function.update_self] at hupdate
    exact .inl ⟨rfl, (Option.some.inj hupdate).symm⟩
  · rw [Function.update_of_ne ha] at hupdate
    exact .inr ⟨ha, hupdate⟩

theorem eq_some_of_update_none {α β : Type} [DecidableEq α] {f : α → Option β} {a a' : α} {b : β}
    (hupdate : Function.update f a none a' = some b) : a' ≠ a ∧ f a' = some b := by
  by_cases ha : a' = a
  · subst ha
    rw [Function.update_self] at hupdate
    cases hupdate
  · rw [Function.update_of_ne ha] at hupdate
    exact ⟨ha, hupdate⟩

/-- What is found before the value at a key changes, and what is found there
afterwards. -/
theorem update_forward {α β : Type} [DecidableEq α] {f : α → Option β} {a a' : α} {b b' : β}
    (hvalue : f a = some b) (hfound : f a' = some b') (c : β) :
    (b' = b ∧ Function.update f a (some c) a' = some c) ∨
      Function.update f a (some c) a' = some b' := by
  by_cases ha : a' = a
  · subst ha
    exact .inl ⟨Option.some.inj (hfound.symm.trans hvalue), Function.update_self ..⟩
  · rw [Function.update_of_ne ha]
    exact .inr hfound

/-- Keys with different values are different. -/
theorem update_of_apply_ne {α β : Type} [DecidableEq α] {f : α → β} {a a' : α}
    (hne : f a' ≠ f a) (b : β) : Function.update f a b a' = f a' := by
  apply Function.update_of_ne
  rintro rfl
  exact hne rfl

def Request.closes : Request π → Option Nat
  | .close _ session => session
  | _ => none

def pendingSessions (responses : List ConnectMail) (requests : List (Request π)) : List Nat :=
  responses.filterMap (fun mail => mail.resp.address) ++ requests.filterMap Request.closes

/-- The session is open, in the table, and on the connection. -/
def Live (heap : Nat → Option (SessionRecord π)) (sessions : Bytes → Option Nat) (s k : Nat) :
    Prop :=
  ∃ session, heap s = some session ∧ session.state = .opened ∧ session.conn = k ∧
    sessions session.clientId = some s

def Attached (conns : Nat → Option ClientConn) (k s : Nat) : Prop :=
  ∃ conn, conns k = some conn ∧ conn.connState = .inSession ∧ conn.upstream = .session s

def Unheld (conns : Nat → Option ClientConn) (responses : List ConnectMail)
    (requests : List (Request π)) (s : Nat) : Prop :=
  s ∉ pendingSessions responses requests ∧ ∀ k, ¬ Attached conns k s

/-- The table names every session it holds by its own client identifier. -/
def Registered (heap : Nat → Option (SessionRecord π)) (sessions : Bytes → Option Nat) : Prop :=
  ∀ clientId s, sessions clientId = some s → ∃ session,
    heap s = some session ∧ session.clientId = clientId ∧ session.released = false

theorem Registered.clientId_eq {heap : Nat → Option (SessionRecord π)}
    {sessions : Bytes → Option Nat} (h : Registered heap sessions) {clientId : Bytes} {s : Nat}
    {session : SessionRecord π} (hregistered : sessions clientId = some s)
    (hsession : heap s = some session) : session.clientId = clientId := by
  obtain ⟨found, hfound, hname, -⟩ := h clientId s hregistered
  obtain rfl := Option.some.inj (hsession.symm.trans hfound)
  exact hname

structure HeldOnce (conns : Nat → Option ClientConn) (heap : Nat → Option (SessionRecord π))
    (sessions : Bytes → Option Nat) (responses : List ConnectMail) (requests : List (Request π)) :
    Prop where
  registered : Registered heap sessions
  /-- a connection that starts a session does not point to an old one -/
  starting : ∀ k conn s, conns k = some conn → conn.upstream = .session s →
    conn.connState = .inSession ∨ conn.connState = .noSession
  attached : ∀ k s, Attached conns k s →
    Live heap sessions s k ∧ s ∉ pendingSessions responses requests
  answered : ∀ mail ∈ responses, ∀ s, mail.resp.address = some s → Live heap sessions s mail.conn
  closing : ∀ request ∈ requests, ∀ s, request.closes = some s → ∃ k, Live heap sessions s k
  nodup : (pendingSessions responses requests).Nodup

def Broker.Coherent (broker : Broker π) : Prop :=
  HeldOnce broker.conns broker.heap broker.sessions broker.mqttConnectResponses broker.requests

/-! ### The holders -/

section Holders

variable {conns : Nat → Option ClientConn} {heap : Nat → Option (SessionRecord π)}
  {sessions : Bytes → Option Nat} {responses : List ConnectMail} {requests : List (Request π)}
  {k s : Nat}

theorem Live.conn_unique {k' : Nat} (hlive : Live heap sessions s k)
    (hlive' : Live heap sessions s k') : k = k' := by
  obtain ⟨session, hsession, -, rfl, -⟩ := hlive
  obtain ⟨session', hsession', -, rfl, -⟩ := hlive'
  obtain rfl := Option.some.inj (hsession.symm.trans hsession')
  rfl

theorem attached_update {conn : ClientConn} {k' : Nat}
    (hattached : Attached (Function.update conns k (some conn)) k' s) :
    (k' = k ∧ conn.connState = .inSession ∧ conn.upstream = .session s) ∨
      (k' ≠ k ∧ Attached conns k' s) := by
  obtain ⟨found, hfound, hin, hup⟩ := hattached
  rcases update_cases hfound with ⟨rfl, rfl⟩ | ⟨hk, hbefore⟩
  · exact .inl ⟨rfl, hin, hup⟩
  · exact .inr ⟨hk, found, hbefore, hin, hup⟩

theorem attached_update_idle {conn : ClientConn} {k' : Nat} (hidle : conn.connState ≠ .inSession)
    (hattached : Attached (Function.update conns k (some conn)) k' s) :
    k' ≠ k ∧ Attached conns k' s := by
  rcases attached_update hattached with ⟨-, hin, -⟩ | hother
  · exact (hidle hin).elim
  · exact hother

theorem pendingSessions_post (responses : List ConnectMail) (requests : List (Request π))
    (request : Request π) :
    pendingSessions responses (requests ++ [request])
      = pendingSessions responses requests ++ request.closes.toList := by
  cases hcloses : request.closes <;> simp [pendingSessions, List.filterMap_append, hcloses]

theorem pendingSessions_respond (responses : List ConnectMail) (requests : List (Request π))
    (mail : ConnectMail) :
    (pendingSessions (responses ++ [mail]) requests).Perm
      (mail.resp.address.toList ++ pendingSessions responses requests) := by
  cases haddress : mail.resp.address with
  | none => simp [pendingSessions, List.filterMap_append, haddress]
  | some s =>
      simp only [pendingSessions, List.filterMap_append, List.filterMap_cons, haddress,
        List.filterMap_nil, Option.toList_some, List.append_assoc, List.singleton_append]
      exact List.perm_middle

theorem pendingSessions_take (before after : List ConnectMail) (requests : List (Request π))
    (mail : ConnectMail) :
    (pendingSessions (before ++ mail :: after) requests).Perm
      (mail.resp.address.toList ++ pendingSessions (before ++ after) requests) := by
  cases haddress : mail.resp.address with
  | none => simp [pendingSessions, List.filterMap_append, haddress]
  | some s =>
      simp only [pendingSessions, List.filterMap_append, List.filterMap_cons, haddress,
        Option.toList_some, List.append_assoc, List.cons_append, List.nil_append]
      exact List.perm_middle

theorem pendingSessions_dequeue (responses : List ConnectMail) (requests : List (Request π))
    (request : Request π) :
    (pendingSessions responses (request :: requests)).Perm
      (request.closes.toList ++ pendingSessions responses requests) := by
  cases hcloses : request.closes with
  | none => simp [pendingSessions, hcloses]
  | some s =>
      simp only [pendingSessions, List.filterMap_cons, hcloses, Option.toList_some,
        List.singleton_append]
      exact List.perm_middle

end Holders

/-! ### What the parts of a step keep -/

namespace HeldOnce

variable {conns : Nat → Option ClientConn} {heap : Nat → Option (SessionRecord π)}
  {sessions : Bytes → Option Nat} {responses : List ConnectMail} {requests : List (Request π)}
  {k s : Nat}

/-- A connection that is not in session holds nothing. -/
theorem setIdle (h : HeldOnce conns heap sessions responses requests) {conn : ClientConn}
    (hidle : conn.connState ≠ .inSession)
    (hstale : ∀ s, conn.upstream = .session s → conn.connState = .noSession) :
    HeldOnce (Function.update conns k (some conn)) heap sessions responses requests := by
  refine ⟨h.registered, ?_, ?_, h.answered, h.closing, h.nodup⟩
  · intro k' found s hfound hup
    rcases update_cases hfound with ⟨rfl, rfl⟩ | ⟨-, hbefore⟩
    · exact .inr (hstale s hup)
    · exact h.starting k' found s hbefore hup
  · intro k' s hattached
    exact h.attached k' s (attached_update_idle hidle hattached).2

theorem post (h : HeldOnce conns heap sessions responses requests) {request : Request π}
    (hcloses : request.closes = none) :
    HeldOnce conns heap sessions responses (requests ++ [request]) := by
  have hpending : pendingSessions responses (requests ++ [request])
      = pendingSessions responses requests := by
    rw [pendingSessions_post, hcloses, Option.toList_none, List.append_nil]
  refine ⟨h.registered, h.starting, ?_, h.answered, ?_, ?_⟩
  · intro k s hattached
    rw [hpending]
    exact h.attached k s hattached
  · intro other hother s hs
    rcases List.mem_append.mp hother with hold | hnew
    · exact h.closing other hold s hs
    · obtain rfl := List.mem_singleton.mp hnew
      rw [hcloses] at hs
      cases hs
  · rw [hpending]
    exact h.nodup

theorem postClose (h : HeldOnce conns heap sessions responses requests) (op : SessionReqOp)
    (hlive : Live heap sessions s k) (hunheld : Unheld conns responses requests s) :
    HeldOnce conns heap sessions responses (requests ++ [.close op (some s)]) := by
  have hpending : pendingSessions responses (requests ++ [.close op (some s)])
      = pendingSessions responses requests ++ [s] := pendingSessions_post _ _ _
  refine ⟨h.registered, h.starting, ?_, h.answered, ?_, ?_⟩
  · intro k' s' hattached
    obtain ⟨hlive', hfree⟩ := h.attached k' s' hattached
    refine ⟨hlive', ?_⟩
    rw [hpending, List.mem_append, List.mem_singleton]
    rintro (hmem | rfl)
    · exact hfree hmem
    · exact hunheld.2 k' hattached
  · intro request hrequest s' hs
    rcases List.mem_append.mp hrequest with hold | hnew
    · exact h.closing request hold s' hs
    · obtain rfl := List.mem_singleton.mp hnew
      obtain rfl := Option.some.inj hs
      exact ⟨k, hlive⟩
  · rw [hpending]
    apply h.nodup.append (List.nodup_singleton s)
    intro s' hmem hs
    rw [List.mem_singleton.mp hs] at hmem
    exact hunheld.1 hmem

theorem respond (h : HeldOnce conns heap sessions responses requests) {mail : ConnectMail}
    (hmail : ∀ s, mail.resp.address = some s →
      Live heap sessions s mail.conn ∧ Unheld conns responses requests s) :
    HeldOnce conns heap sessions (responses ++ [mail]) requests := by
  have hpending := pendingSessions_respond responses requests mail
  refine ⟨h.registered, h.starting, ?_, ?_, h.closing, ?_⟩
  · intro k s hattached
    obtain ⟨hlive, hfree⟩ := h.attached k s hattached
    refine ⟨hlive, ?_⟩
    rw [hpending.mem_iff, List.mem_append, Option.mem_toList]
    rintro (haddress | hmem)
    · exact (hmail s haddress).2.2 k hattached
    · exact hfree hmem
  · intro other hother s hs
    rcases List.mem_append.mp hother with hold | hnew
    · exact h.answered other hold s hs
    · obtain rfl := List.mem_singleton.mp hnew
      exact (hmail s hs).1
  · rw [hpending.nodup_iff]
    cases haddress : mail.resp.address with
    | none => exact h.nodup
    | some s => exact List.nodup_cons.mpr ⟨(hmail s haddress).2.1, h.nodup⟩

theorem take {before after : List ConnectMail} {mail : ConnectMail}
    (h : HeldOnce conns heap sessions (before ++ mail :: after) requests) :
    HeldOnce conns heap sessions (before ++ after) requests := by
  have hpending := pendingSessions_take before after requests mail
  refine ⟨h.registered, h.starting, ?_, ?_, h.closing, ?_⟩
  · intro k s hattached
    obtain ⟨hlive, hfree⟩ := h.attached k s hattached
    rw [hpending.mem_iff, List.mem_append, not_or] at hfree
    exact ⟨hlive, hfree.2⟩
  · intro other hother
    apply h.answered other
    simp only [List.mem_append, List.mem_cons] at hother ⊢
    tauto
  · exact (List.nodup_append.mp (hpending.nodup_iff.mp h.nodup)).2.1

/-- What the answer that is taken held is held by nothing else. -/
theorem unheld_of_take {before after : List ConnectMail} {mail : ConnectMail}
    (h : HeldOnce conns heap sessions (before ++ mail :: after) requests)
    (haddress : mail.resp.address = some s) : Unheld conns (before ++ after) requests s := by
  have hpending := pendingSessions_take before after requests mail
  rw [haddress, Option.toList_some] at hpending
  constructor
  · exact (List.nodup_cons.mp (hpending.nodup_iff.mp h.nodup)).1
  · intro k hattached
    apply (h.attached k s hattached).2
    rw [hpending.mem_iff]
    exact List.mem_cons_self

theorem live_of_take {before after : List ConnectMail} {mail : ConnectMail}
    (h : HeldOnce conns heap sessions (before ++ mail :: after) requests)
    (haddress : mail.resp.address = some s) : Live heap sessions s mail.conn :=
  h.answered mail (List.mem_append_right before List.mem_cons_self) s haddress

theorem enter (h : HeldOnce conns heap sessions responses requests) {conn : ClientConn}
    (hin : conn.connState = .inSession) (hup : conn.upstream = .session s)
    (hlive : Live heap sessions s k) (hunheld : Unheld conns responses requests s) :
    HeldOnce (Function.update conns k (some conn)) heap sessions responses requests := by
  refine ⟨h.registered, ?_, ?_, h.answered, h.closing, h.nodup⟩
  · intro k' found s' hfound hup'
    rcases update_cases hfound with ⟨rfl, rfl⟩ | ⟨-, hbefore⟩
    · exact .inl hin
    · exact h.starting k' found s' hbefore hup'
  · intro k' s' hattached
    rcases attached_update hattached with ⟨rfl, -, hup'⟩ | ⟨-, hother⟩
    · obtain rfl := Upstream.session.inj (hup.symm.trans hup')
      exact ⟨hlive, hunheld.1⟩
    · exact h.attached k' s' hother

theorem dequeue {request : Request π}
    (h : HeldOnce conns heap sessions responses (request :: requests)) :
    HeldOnce conns heap sessions responses requests := by
  have hpending := pendingSessions_dequeue responses requests request
  refine ⟨h.registered, h.starting, ?_, h.answered, ?_, ?_⟩
  · intro k s hattached
    obtain ⟨hlive, hfree⟩ := h.attached k s hattached
    rw [hpending.mem_iff, List.mem_append, not_or] at hfree
    exact ⟨hlive, hfree.2⟩
  · intro other hother
    exact h.closing other (List.mem_cons_of_mem request hother)
  · exact (List.nodup_append.mp (hpending.nodup_iff.mp h.nodup)).2.1

theorem unheld_of_dequeue {request : Request π}
    (h : HeldOnce conns heap sessions responses (request :: requests))
    (hcloses : request.closes = some s) : Unheld conns responses requests s := by
  have hpending := pendingSessions_dequeue responses requests request
  rw [hcloses, Option.toList_some] at hpending
  constructor
  · exact (List.nodup_cons.mp (hpending.nodup_iff.mp h.nodup)).1
  · intro k hattached
    apply (h.attached k s hattached).2
    rw [hpending.mem_iff]
    exact List.mem_cons_self

theorem live_of_dequeue {request : Request π}
    (h : HeldOnce conns heap sessions responses (request :: requests))
    (hcloses : request.closes = some s) : ∃ k, Live heap sessions s k :=
  h.closing request List.mem_cons_self s hcloses

/-- Only live sessions are held. -/
theorem unheld_of_not_live (h : HeldOnce conns heap sessions responses requests)
    (hdead : ∀ k, ¬ Live heap sessions s k) : Unheld conns responses requests s := by
  constructor
  · intro hmem
    rcases List.mem_append.mp hmem with hresponse | hrequest
    · obtain ⟨mail, hmail, haddress⟩ := List.mem_filterMap.mp hresponse
      exact hdead mail.conn (h.answered mail hmail s haddress)
    · obtain ⟨request, hmem, hcloses⟩ := List.mem_filterMap.mp hrequest
      obtain ⟨k, hlive⟩ := h.closing request hmem s hcloses
      exact hdead k hlive
  · intro k hattached
    exact hdead k (h.attached k s hattached).1

/-- Changing a session that nobody holds. -/
theorem setUnheld (h : HeldOnce conns heap sessions responses requests)
    (hunheld : Unheld conns responses requests s) {session : SessionRecord π}
    {sessions' : Bytes → Option Nat}
    (hkeep : ∀ clientId s', s' ≠ s → sessions clientId = some s' → sessions' clientId = some s')
    (hregistered : Registered (Function.update heap s (some session)) sessions') :
    HeldOnce conns (Function.update heap s (some session)) sessions' responses requests := by
  have hlive : ∀ s' k, s' ≠ s → Live heap sessions s' k →
      Live (Function.update heap s (some session)) sessions' s' k := by
    rintro s' k hother ⟨found, hfound, hopened, hconn, htable⟩
    refine ⟨found, ?_, hopened, hconn, hkeep _ s' hother htable⟩
    rw [Function.update_of_ne hother]
    exact hfound
  have hpending : ∀ s' ∈ pendingSessions responses requests, s' ≠ s := by
    rintro s' hmem rfl
    exact hunheld.1 hmem
  refine ⟨hregistered, h.starting, ?_, ?_, ?_, h.nodup⟩
  · intro k s' hattached
    obtain ⟨hlive', hfree⟩ := h.attached k s' hattached
    refine ⟨hlive s' k ?_ hlive', hfree⟩
    rintro rfl
    exact hunheld.2 k hattached
  · intro mail hmail s' haddress
    apply hlive s' mail.conn (hpending s' ?_) (h.answered mail hmail s' haddress)
    exact List.mem_append_left _ (List.mem_filterMap.mpr ⟨mail, hmail, haddress⟩)
  · intro request hrequest s' hcloses
    obtain ⟨k, hlive'⟩ := h.closing request hrequest s' hcloses
    refine ⟨k, hlive s' k (hpending s' ?_) hlive'⟩
    exact List.mem_append_right _ (List.mem_filterMap.mpr ⟨request, hrequest, hcloses⟩)

/-- Changing the other fields of a session. -/
theorem setFields (h : HeldOnce conns heap sessions responses requests)
    {session changed : SessionRecord π} (hsession : heap s = some session)
    (hstate : changed.state = session.state) (hconn : changed.conn = session.conn)
    (hclient : changed.clientId = session.clientId)
    (hreleased : changed.released = session.released) :
    HeldOnce conns (Function.update heap s (some changed)) sessions responses requests := by
  have hfind : ∀ s' found, heap s' = some found → ∃ found',
      Function.update heap s (some changed) s' = some found' ∧ found'.state = found.state ∧
        found'.conn = found.conn ∧ found'.clientId = found.clientId ∧
        found'.released = found.released := by
    intro s' found hfound
    rcases update_forward hsession hfound changed with ⟨rfl, hafter⟩ | hafter
    · exact ⟨changed, hafter, hstate, hconn, hclient, hreleased⟩
    · exact ⟨found, hafter, rfl, rfl, rfl, rfl⟩
  have hlive : ∀ s' k, Live heap sessions s' k →
      Live (Function.update heap s (some changed)) sessions s' k := by
    rintro s' k ⟨found, hfound, hopened, rfl, htable⟩
    obtain ⟨found', hfound', hstate', hconn', hclient', -⟩ := hfind s' found hfound
    exact ⟨found', hfound', hstate'.trans hopened, hconn', by rw [hclient']; exact htable⟩
  refine ⟨?_, h.starting, ?_, ?_, ?_, h.nodup⟩
  · intro clientId s' htable
    obtain ⟨found, hfound, rfl, hkept⟩ := h.registered clientId s' htable
    obtain ⟨found', hfound', -, -, hclient', hreleased'⟩ := hfind s' found hfound
    exact ⟨found', hfound', hclient', hreleased'.trans hkept⟩
  · intro k s' hattached
    obtain ⟨hlive', hfree⟩ := h.attached k s' hattached
    exact ⟨hlive s' k hlive', hfree⟩
  · intro mail hmail s' haddress
    exact hlive s' mail.conn (h.answered mail hmail s' haddress)
  · intro request hrequest s' hcloses
    obtain ⟨k, hlive'⟩ := h.closing request hrequest s' hcloses
    exact ⟨k, hlive s' k hlive'⟩

/-- A new session in the table. -/
theorem putNew (h : HeldOnce conns heap sessions responses requests) (hfree : heap s = none)
    {session : SessionRecord π} (habsent : sessions session.clientId = none)
    (hopened : session.state = .opened) (hkept : session.released = false) (ioContext : Nat)
    (sessionPresent : Bool) :
    HeldOnce conns (Function.update heap s (some session))
      (Function.update sessions session.clientId (some s))
      (responses ++ [⟨ioContext, session.conn, .accepted s sessionPresent⟩]) requests := by
  have hunheld : Unheld conns responses requests s := by
    apply h.unheld_of_not_live
    rintro k ⟨found, hfound, -⟩
    rw [hfree] at hfound
    cases hfound
  have hkeep : ∀ clientId s', s' ≠ s → sessions clientId = some s' →
      Function.update sessions session.clientId (some s) clientId = some s' := by
    intro clientId s' _ htable
    exact (update_of_apply_ne (by simp [htable, habsent]) _).trans htable
  apply (h.setUnheld hunheld hkeep ?_).respond
  · intro s' haddress
    obtain rfl := Option.some.inj haddress
    exact ⟨⟨session, Function.update_self .., hopened, rfl, Function.update_self ..⟩, hunheld⟩
  · intro clientId s' htable
    rcases update_cases htable with ⟨rfl, rfl⟩ | ⟨-, hbefore⟩
    · exact ⟨session, Function.update_self .., rfl, hkept⟩
    · obtain ⟨found, hfound, hname⟩ := h.registered clientId s' hbefore
      refine ⟨found, ?_, hname⟩
      exact (update_of_apply_ne (by simp [hfound, hfree]) _).trans hfound

/-- A session nobody holds that stays in the table. -/
theorem keep (h : HeldOnce conns heap sessions responses requests)
    (hunheld : Unheld conns responses requests s) {session changed : SessionRecord π}
    (hsession : heap s = some session) (hclient : changed.clientId = session.clientId)
    (hreleased : changed.released = session.released) :
    HeldOnce conns (Function.update heap s (some changed)) sessions responses requests := by
  apply h.setUnheld hunheld
  · intro clientId s' _ htable
    exact htable
  · intro clientId s' htable
    obtain ⟨found, hfound, hname, hkept⟩ := h.registered clientId s' htable
    rcases update_forward hsession hfound changed with ⟨rfl, hafter⟩ | hafter
    · exact ⟨changed, hafter, hclient.trans hname, hreleased.trans hkept⟩
    · exact ⟨found, hafter, hname, hkept⟩

/-- A session nobody holds that leaves the table. -/
theorem clean (h : HeldOnce conns heap sessions responses requests)
    (hunheld : Unheld conns responses requests s) {session : SessionRecord π}
    (changed : SessionRecord π) (hregistered : sessions session.clientId = some s) :
    HeldOnce conns (Function.update heap s (some changed))
      (Function.update sessions session.clientId none) responses requests := by
  apply h.setUnheld hunheld
  · intro clientId s' hother htable
    rw [Function.update_of_ne, htable]
    rintro rfl
    exact hother (Option.some.inj (htable.symm.trans hregistered))
  · intro clientId s' htable
    obtain ⟨hclient, hbefore⟩ := eq_some_of_update_none htable
    obtain ⟨found, hfound, hname, hkept⟩ := h.registered clientId s' hbefore
    refine ⟨found, ?_, hname, hkept⟩
    rw [Function.update_of_ne, hfound]
    rintro rfl
    obtain ⟨found', hfound', hname', -⟩ := h.registered _ _ hregistered
    obtain rfl := Option.some.inj (hfound.symm.trans hfound')
    exact hclient (hname.symm.trans hname')

end HeldOnce

/-! ### Every step keeps the invariant -/

namespace Broker

theorem coherent_init : (init : Broker π).Coherent := by
  refine ⟨?_, ?_, ?_, ?_, ?_, List.nodup_nil⟩
  · intro clientId s htable
    cases htable
  · intro k conn s hconn
    cases hconn
  · rintro k s ⟨conn, hconn, -⟩
    cases hconn
  · intro mail hmail
    cases hmail
  · intro request hrequest
    cases hrequest

theorem not_live_of_closed {heap : Nat → Option (SessionRecord π)} {sessions : Bytes → Option Nat}
    {s : Nat} {session : SessionRecord π} (hsession : heap s = some session)
    (hclosed : session.state = .closed) (k : Nat) : ¬ Live heap sessions s k := by
  rintro ⟨found, hfound, hopened, -⟩
  obtain rfl := Option.some.inj (hsession.symm.trans hfound)
  rw [hclosed] at hopened
  cases hopened

theorem not_live_of_free {heap : Nat → Option (SessionRecord π)} {sessions : Bytes → Option Nat}
    {s : Nat} (hfree : heap s = none) (k : Nat) : ¬ Live heap sessions s k := by
  rintro ⟨session, hsession, -⟩
  rw [hfree] at hsession
  cases hsession

variable {J : Type} [TmqString π] {config : BrokerConfig π J} {broker next : Broker π}
  {label : Label π}

omit [TmqString π] in
/-- The connection gives up its session to a close request. -/
theorem Coherent.detach (h : broker.Coherent) {k s : Nat} {conn changed : ClientConn}
    (hconn : broker.conns k = some conn) (hin : conn.connState = .inSession)
    (hup : conn.upstream = .session s) (hidle : changed.connState = .noSession)
    (op : SessionReqOp) :
    HeldOnce (Function.update broker.conns k (some changed)) broker.heap broker.sessions
      broker.mqttConnectResponses (broker.requests ++ [.close op (some s)]) := by
  obtain ⟨hlive, hfree⟩ := h.attached k s ⟨conn, hconn, hin, hup⟩
  have hidle' : changed.connState ≠ .inSession := by
    rw [hidle]
    decide
  apply (h.setIdle hidle' fun _ _ => hidle).postClose op hlive
  refine ⟨hfree, ?_⟩
  intro k' hattached
  obtain ⟨hk, hother⟩ := attached_update_idle hidle' hattached
  exact hk ((h.attached k' s hother).1.conn_unique hlive)

omit [TmqString π] in
/-- A packet that passes the decoder's check reaches a live session. -/
theorem Coherent.live_of_gate (h : broker.Coherent) {k s : Nat} {conn : ClientConn}
    (hconn : broker.conns k = some conn) (hgate : conn.connState ≠ .noSession)
    (hup : conn.upstream = .session s) : Attached broker.conns k s ∧
      Live broker.heap broker.sessions s k := by
  have hattached : Attached broker.conns k s :=
    ⟨conn, hconn, (h.starting k conn s hconn hup).resolve_right hgate, hup⟩
  exact ⟨hattached, (h.attached k s hattached).1⟩

theorem coherent_change (h : broker.Coherent) (hchange : Change config broker label next) :
    next.Coherent := by
  cases hchange with
  | unchanged => exact h
  | accept n hnew => exact h.setIdle (by simp) nofun
  | closeIdle label hconn hopen hidle =>
      refine h.setIdle hidle ?_
      intro s hup
      exact (h.starting _ _ s hconn hup).resolve_left hidle
  | closeAttached label draining hconn hopen hin hup =>
      exact h.detach hconn hin hup rfl .sessionForceClose
  | stop label hconn hidle hclosed => exact h.setIdle (by simp [hidle]) fun _ _ => hidle
  | connectPool hconn hup => exact h.setIdle (by simp) (by simp [hup])
  | connectPost hconn hup =>
      exact (HeldOnce.setIdle h (by simp) (by simp [hup])).post rfl
  | connectRefuse hconn hup => exact h.setIdle (by simp) (by simp [hup])
  | connectLose hconn hup => exact h.setIdle (by simp) (by simp [hup])
  | disconnectIdle hconn => exact h.setIdle (by simp) (by simp)
  | disconnectAttached hconn hreadable hin hup =>
      exact h.detach hconn hin hup rfl .sessionDisconnect
  | subscribe hconn hgate hup hsession =>
      refine HeldOnce.post (h.setFields hsession ?_ ?_ ?_ ?_) ?_ <;> rfl
  | unsubscribe hconn hgate hup hsession =>
      refine HeldOnce.post (h.setFields hsession ?_ ?_ ?_ ?_) ?_ <;> rfl
  | validate hpool => exact h.post rfl
  | invalidate hpool hconn => exact h.respond nofun
  | @answerClose ioContext mail conn before after hmails htake hconn hclose =>
      have h' : HeldOnce broker.conns broker.heap broker.sessions (before ++ mail :: after)
          broker.requests := by
        rw [← hmails]
        exact h
      cases haddress : mail.resp.address with
      | none => exact h'.take.post (by simp [Request.closes])
      | some s => exact h'.take.postClose _ (h'.live_of_take haddress) (h'.unheld_of_take haddress)
  | answerEnter hmails htake hconn hconnected hpending =>
      rw [Coherent, hmails] at h
      exact h.take.enter rfl rfl (h.live_of_take rfl) (h.unheld_of_take rfl)
  | answerRefuse hmails hconn hconnected =>
      rw [Coherent, hmails] at h
      exact h.take
  | reject hrequests =>
      rw [Coherent, hrequests] at h
      exact h.dequeue.respond nofun
  | startNew hrequests hconn habsent hfree =>
      rw [Coherent, hrequests] at h
      exact h.dequeue.putNew hfree habsent rfl rfl _ _
  | @restart run k s req requests conn session topics hrequests hconn hregistered hsession hclosed
      hclean horder hremoved hfree =>
      rw [Coherent, hrequests] at h
      have hname := h.registered.clientId_eq hregistered hsession
      have hunheld := h.dequeue.unheld_of_not_live (not_live_of_closed hsession hclosed)
      have hcleaned := h.dequeue.clean hunheld
        { session with state := .closed, released := true } (hname ▸ hregistered)
      refine hcleaned.putNew ?_ ?_ rfl rfl _ _
      · exact (update_of_apply_ne (by simp [hfree, hsession]) _).trans hfree
      · rw [hname]
        exact Function.update_self ..
  | @resume run k s req requests conn session hrequests hconn hregistered hsession hclosed =>
      rw [Coherent, hrequests] at h
      have hname := h.registered.clientId_eq hregistered hsession
      have hunheld := h.dequeue.unheld_of_not_live (not_live_of_closed hsession hclosed)
      refine (h.dequeue.keep hunheld hsession ?_ ?_).respond ?_
      · rfl
      · rfl
      · intro s' haddress
        obtain rfl := Option.some.inj haddress
        exact ⟨⟨_, Function.update_self .., rfl, rfl, by rw [hname]; exact hregistered⟩, hunheld⟩
  | closeKeep hrequests hsession =>
      rw [Coherent, hrequests] at h
      exact h.dequeue.keep (h.unheld_of_dequeue rfl) hsession rfl rfl
  | closeClean hrequests hsession =>
      rw [Coherent, hrequests] at h
      obtain ⟨k, found, hfound, -, -, hregistered⟩ := h.live_of_dequeue rfl
      obtain rfl := Option.some.inj (hsession.symm.trans hfound)
      exact h.dequeue.clean (h.unheld_of_dequeue rfl) _ hregistered
  | dropTopics hrequests =>
      rw [Coherent, hrequests] at h
      exact h.dequeue
  | addTopics hrequests =>
      rw [Coherent, hrequests] at h
      exact h.dequeue
  | removeTopics hrequests =>
      rw [Coherent, hrequests] at h
      exact h.dequeue
  | publish => exact h
  | broadcast => exact h

/-- Every reachable state is coherent. -/
theorem coherent_runs {labels : List (Label π)}
    (hrun : Run.runs (step config) init labels = some broker) : broker.Coherent := by
  apply Run.runs_maintains _ coherent_init hrun
  intro state label next h hstep
  exact coherent_change h (step_change hstep)

end Broker

end TinyMqtt
