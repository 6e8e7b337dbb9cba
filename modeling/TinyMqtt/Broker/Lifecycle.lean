import TinyMqtt.Broker.Types
import Mathlib.Data.Multiset.Count
import Mathlib.Logic.Relation

/-!
The life of one connection, seen from the outside: its CONNECT packets that
wait for a decision, the answers on their way to it, the close requests that
wait for its sessions, and what happened to it. This is a protocol of its own;
that the broker follows it for every connection is shown separately.

A connection that sends one CONNECT, and has it accepted, closes its session by
one request, and the request publishes the will just when the connection was
lost before a DISCONNECT.
-/

namespace TinyMqtt

variable {π : Type}

inductive ConnEnd where
  | disconnect | tcpClosed
  deriving DecidableEq, Repr

/-- How a session is closed at the end of its connection. -/
def ConnEnd.op : ConnEnd → SessionReqOp
  | .disconnect => .sessionDisconnect
  | .tcpClosed => .sessionForceClose

/-- What happened to a connection, each kind of event in order. -/
structure Ledger (π : Type) where
  /-- the wills of the CONNECT packets -/
  connects : List (Option (Will π))
  /-- the sessions that were started for them -/
  accepts : List (Nat × Option (Will π))
  ends : List ConnEnd
  /-- the close requests that name a session -/
  closes : List (SessionReqOp × Nat)
  /-- the close requests that name none -/
  nullCloses : List SessionReqOp
  /-- the close requests that were executed, with the will of the session -/
  finished : List (SessionReqOp × Option (Will π))
  wills : List (Will π)

def willOnClose (op : SessionReqOp) (will : Option (Will π)) : Option (Will π) :=
  match op with
  | .sessionForceClose => will
  | .sessionDisconnect => none

structure Lifecycle (π : Type) extends Ledger π where
  conn : Option ClientConn
  /-- the wills of the CONNECT packets that wait for a decision -/
  deciding : Multiset (Option (Will π))
  /-- the answers on their way, `none` for a refusal -/
  answers : Multiset (Option Nat)
  /-- the close requests that wait for sessions on the connection -/
  closing : List SessionReqOp

namespace Lifecycle

def inSession (life : Lifecycle π) : Nat :=
  if life.conn.any fun conn => conn.connState = .inSession then 1 else 0

def init : Lifecycle π where
  connects := []
  accepts := []
  ends := []
  closes := []
  nullCloses := []
  finished := []
  wills := []
  conn := none
  deciding := 0
  answers := 0
  closing := []

theorem inSession_eq_zero {life : Lifecycle π} {conn : ClientConn} (hconn : life.conn = some conn)
    (hidle : conn.connState ≠ .inSession) : life.inSession = 0 := by
  simp [inSession, hconn, hidle]

theorem inSession_eq_one {life : Lifecycle π} {conn : ClientConn} (hconn : life.conn = some conn)
    (hin : conn.connState = .inSession) : life.inSession = 1 := by
  simp [inSession, hconn, hin]

inductive Step (life : Lifecycle π) : Lifecycle π → Prop where
  | stutter : Step life life
  | appear {conn : ClientConn} (hnew : life.conn = none) (hidle : conn.connState = .noSession)
      (hempty : conn.draining = false) : Step life { life with conn := some conn }
  | closeIdle {conn : ClientConn} (hconn : life.conn = some conn)
      (hopen : conn.state ≠ .disconnected) (hidle : conn.connState ≠ .inSession) :
      Step life { life with
        conn := some { conn with state := .disconnected, draining := false }
        ends := life.ends ++ [.tcpClosed] }
  | closeAttached {conn : ClientConn} {s : Nat} (draining : Bool) (hconn : life.conn = some conn)
      (hopen : conn.state ≠ .disconnected) (hin : conn.connState = .inSession)
      (hup : conn.upstream = .session s) :
      Step life { life with
        conn := some
          { conn with state := .disconnected, connState := .noSession, draining := draining }
        ends := life.ends ++ [.tcpClosed]
        closes := life.closes ++ [(.sessionForceClose, s)]
        closing := life.closing ++ [.sessionForceClose] }
  | stop {conn : ClientConn} (hconn : life.conn = some conn) (hidle : conn.connState = .noSession) :
      Step life { life with conn := some { conn with draining := false } }
  | connect {conn : ClientConn} (will : Option (Will π)) (hconn : life.conn = some conn)
      (hup : conn.upstream = .broker)
      (hreadable : conn.state = .connected ∨ conn.draining = true) :
      Step life { life with
        conn := some { conn with connState := .startingSession }
        connects := life.connects ++ [will]
        deciding := will ::ₘ life.deciding }
  | connectRefuse {conn changed : ClientConn} (will : Option (Will π)) (ends : List ConnEnd)
      (hconn : life.conn = some conn) (hup : conn.upstream = .broker)
      (hstarting : changed.connState = .startingSession) :
      Step life { life with
        conn := some changed
        connects := life.connects ++ [will]
        ends := ends }
  | disconnectIdle {conn : ClientConn} (hconn : life.conn = some conn)
      (hreadable : conn.state = .connected ∨ conn.draining = true)
      (hidle : conn.connState ≠ .inSession) (hgate : conn.connState ≠ .noSession) :
      Step life { life with
        conn := some { conn with connState := .noSession, upstream := .broker }
        ends := life.ends ++ [.disconnect] }
  | disconnectAttached {conn : ClientConn} {s : Nat} (hconn : life.conn = some conn)
      (hin : conn.connState = .inSession) (hup : conn.upstream = .session s) :
      Step life { life with
        conn := some { conn with connState := .noSession, upstream := .broker }
        ends := life.ends ++ [.disconnect]
        closes := life.closes ++ [(.sessionDisconnect, s)]
        closing := life.closing ++ [.sessionDisconnect] }
  | refuse {deciding : Multiset (Option (Will π))} (will : Option (Will π))
      (hdeciding : life.deciding = will ::ₘ deciding) :
      Step life { life with deciding := deciding, answers := none ::ₘ life.answers }
  | accept {deciding : Multiset (Option (Will π))} (will : Option (Will π)) (s : Nat)
      (hdeciding : life.deciding = will ::ₘ deciding) :
      Step life { life with
        deciding := deciding
        answers := some s ::ₘ life.answers
        accepts := life.accepts ++ [(s, will)] }
  | answerNull {answers : Multiset (Option Nat)} (op : SessionReqOp)
      (hanswers : life.answers = none ::ₘ answers) :
      Step life { life with answers := answers, nullCloses := life.nullCloses ++ [op] }
  | answerClose {conn : ClientConn} {answers : Multiset (Option Nat)} {s : Nat}
      (hanswers : life.answers = some s ::ₘ answers) (hconn : life.conn = some conn)
      (op : SessionReqOp) (hclose : conn.connState = .noSession ∨ conn.state ≠ .connected)
      (hop : op = if conn.connState = .noSession then .sessionDisconnect else .sessionForceClose) :
      Step life { life with
        answers := answers
        closes := life.closes ++ [(op, s)]
        closing := life.closing ++ [op] }
  | answerEnter {conn : ClientConn} {answers : Multiset (Option Nat)} {s : Nat}
      (hanswers : life.answers = some s ::ₘ answers) (hconn : life.conn = some conn)
      (hconnected : conn.state = .connected) (hpending : conn.connState ≠ .noSession) :
      Step life { life with
        conn := some { conn with upstream := .session s, connState := .inSession }
        answers := answers }
  | answerRefuse {answers : Multiset (Option Nat)} (hanswers : life.answers = none ::ₘ answers) :
      Step life { life with answers := answers }
  | finish {closing : List SessionReqOp} {op : SessionReqOp} {s : Nat} {will : Option (Will π)}
      (hclosing : life.closing = op :: closing) (haccepted : (s, will) ∈ life.accepts) :
      Step life { life with
        closing := closing
        finished := life.finished ++ [(op, will)]
        wills := life.wills ++ (willOnClose op will).toList }

theorem Step.of_eq {life next other : Lifecycle π} (hstep : life.Step other) (heq : next = other) :
    life.Step next := by
  rw [heq]
  exact hstep

/-! ### Requests and answers add up -/

/-- What a connection still owes and what it has done. -/
structure Balanced (life : Lifecycle π) : Prop where
  decided : life.accepts.length + life.deciding.card + life.answers.count none +
    life.nullCloses.length ≤ life.connects.length
  deciding : ∀ will ∈ life.deciding, will ∈ life.connects
  accepted : ∀ accept ∈ life.accepts, accept.2 ∈ life.connects
  entered : ∀ conn, life.conn = some conn → conn.connState = .inSession →
    ∃ s, conn.upstream = .session s ∧ s ∈ life.accepts.map Prod.fst
  answered : ∀ s, some s ∈ life.answers → s ∈ life.accepts.map Prod.fst
  closed : ∀ close ∈ life.closes, close.2 ∈ life.accepts.map Prod.fst
  /-- one session is on its way, entered or closed -/
  held : life.accepts.length ≤ 1 → life.closes.length +
    life.answers.countP (fun answer => answer.isSome) + life.inSession = life.accepts.length
  queued : life.closes.map Prod.fst = life.finished.map Prod.fst ++ life.closing
  published : life.wills = life.finished.filterMap fun close => willOnClose close.1 close.2
  finishedWill : ∀ close ∈ life.finished, close.2 ∈ life.accepts.map Prod.snd

theorem countP_some_cons (s : Nat) (answers : Multiset (Option Nat)) :
    (some s ::ₘ answers).countP (fun answer => answer.isSome) =
      answers.countP (fun answer => answer.isSome) + 1 :=
  Multiset.countP_cons_of_pos answers rfl

namespace Balanced

variable {life : Lifecycle π} {conn changed : ClientConn}

theorem init : (Lifecycle.init : Lifecycle π).Balanced := by
  constructor <;> simp [Lifecycle.init, inSession]

/-- A connection stays outside a session. -/
theorem setIdle (h : life.Balanced) (hbefore : life.inSession = 0)
    (hidle : changed.connState ≠ .inSession) (ends : List ConnEnd) :
    { life with conn := some changed, ends := ends }.Balanced := by
  refine { h with entered := ?_, held := ?_ }
  · intro found hfound hin
    obtain rfl := Option.some.inj hfound
    exact (hidle hin).elim
  · intro hone
    rw [inSession_eq_zero rfl hidle, ← hbefore]
    exact h.held hone

/-- A connection leaves its session with a close request. -/
theorem detach (h : life.Balanced) {s : Nat} (hconn : life.conn = some conn)
    (hin : conn.connState = .inSession) (hup : conn.upstream = .session s)
    (hidle : changed.connState ≠ .inSession) (ends : List ConnEnd) (op : SessionReqOp) :
    { life with
      conn := some changed
      ends := ends
      closes := life.closes ++ [(op, s)]
      closing := life.closing ++ [op] }.Balanced := by
  refine { h with entered := ?_, closed := ?_, held := ?_, queued := ?_ }
  · intro found hfound hin
    obtain rfl := Option.some.inj hfound
    exact (hidle hin).elim
  · obtain ⟨s', hup', hmem⟩ := h.entered conn hconn hin
    obtain rfl := Upstream.session.inj (hup.symm.trans hup')
    intro close hclose
    rcases List.mem_append.mp hclose with hold | hnew
    · exact h.closed close hold
    · rw [List.mem_singleton.mp hnew]
      exact hmem
  · intro hone
    have hheld := h.held hone
    rw [inSession_eq_one hconn hin] at hheld
    rw [inSession_eq_zero rfl hidle, List.length_append, List.length_singleton]
    dsimp only
    omega
  · rw [List.map_append, h.queued, List.append_assoc]
    rfl

/-- A CONNECT on a connection that the broker still reads. -/
theorem not_in_of_broker (h : life.Balanced) (hconn : life.conn = some conn)
    (hup : conn.upstream = .broker) : conn.connState ≠ .inSession := by
  intro hin
  obtain ⟨s, hup', -⟩ := h.entered conn hconn hin
  rw [hup] at hup'
  cases hup'

theorem connect (h : life.Balanced) (will : Option (Will π)) (hbefore : life.inSession = 0)
    (hidle : changed.connState ≠ .inSession) (ends : List ConnEnd)
    {deciding : Multiset (Option (Will π))}
    (hdeciding : deciding = life.deciding ∨ deciding = will ::ₘ life.deciding) :
    { life with
      conn := some changed
      ends := ends
      connects := life.connects ++ [will]
      deciding := deciding }.Balanced := by
  refine { h.setIdle hbefore hidle ends with decided := ?_, deciding := ?_, accepted := ?_ }
  · have hdecided := h.decided
    rw [List.length_append, List.length_singleton]
    rcases hdeciding with rfl | rfl
    · exact hdecided.trans (Nat.le_succ _)
    · rw [Multiset.card_cons]
      dsimp only
      omega
  · intro other hother
    rw [List.mem_append, List.mem_singleton]
    rcases hdeciding with rfl | rfl
    · exact .inl (h.deciding other hother)
    · rcases Multiset.mem_cons.mp hother with rfl | hold
      · exact .inr rfl
      · exact .inl (h.deciding other hold)
  · intro accept haccept
    exact List.mem_append_left _ (h.accepted accept haccept)

theorem refuse (h : life.Balanced) {will : Option (Will π)}
    {deciding : Multiset (Option (Will π))} (hdeciding : life.deciding = will ::ₘ deciding) :
    { life with deciding := deciding, answers := none ::ₘ life.answers }.Balanced := by
  refine { h with decided := ?_, deciding := ?_, answered := ?_, held := ?_ }
  · have hdecided := h.decided
    rw [hdeciding, Multiset.card_cons] at hdecided
    rw [Multiset.count_cons_self]
    dsimp only
    omega
  · intro other hother
    apply h.deciding
    rw [hdeciding]
    exact Multiset.mem_cons_of_mem hother
  · intro s hs
    exact h.answered s ((Multiset.mem_cons.mp hs).resolve_left nofun)
  · intro hone
    rw [Multiset.countP_cons_of_neg _ nofun]
    exact h.held hone

theorem accept (h : life.Balanced) {will : Option (Will π)} (s : Nat)
    {deciding : Multiset (Option (Will π))} (hdeciding : life.deciding = will ::ₘ deciding) :
    { life with
      deciding := deciding
      answers := some s ::ₘ life.answers
      accepts := life.accepts ++ [(s, will)] }.Balanced := by
  have hmono : ∀ s', s' ∈ life.accepts.map Prod.fst →
      s' ∈ (life.accepts ++ [(s, will)]).map Prod.fst := by
    intro s' hmem
    rw [List.map_append]
    exact List.mem_append_left _ hmem
  refine { h with
    decided := ?_, deciding := ?_, accepted := ?_, entered := ?_, answered := ?_, closed := ?_,
    held := ?_, finishedWill := ?_ }
  · have hdecided := h.decided
    rw [hdeciding, Multiset.card_cons] at hdecided
    rw [Multiset.count_cons_of_ne (Option.some_ne_none s).symm, List.length_append, List.length_singleton]
    dsimp only
    omega
  · intro other hother
    apply h.deciding
    rw [hdeciding]
    exact Multiset.mem_cons_of_mem hother
  · intro accept haccept
    rcases List.mem_append.mp haccept with hold | hnew
    · exact h.accepted accept hold
    · rw [List.mem_singleton.mp hnew]
      apply h.deciding
      rw [hdeciding]
      exact Multiset.mem_cons_self will deciding
  · intro conn hconn hin
    obtain ⟨s', hup, hmem⟩ := h.entered conn hconn hin
    exact ⟨s', hup, hmono s' hmem⟩
  · intro s' hs
    rcases Multiset.mem_cons.mp hs with hnew | hold
    · obtain rfl := Option.some.inj hnew
      simp
    · exact hmono s' (h.answered s' hold)
  · intro close hclose
    exact hmono close.2 (h.closed close hclose)
  · intro hone
    rw [List.length_append, List.length_singleton] at hone ⊢
    have hheld := h.held (by omega)
    rw [countP_some_cons]
    change life.closes.length + _ + life.inSession = _
    omega
  · intro close hclose
    rw [List.map_append]
    exact List.mem_append_left _ (h.finishedWill close hclose)

/-- An answer that carries no session arrives. -/
theorem answerNone (h : life.Balanced) {answers : Multiset (Option Nat)}
    (hanswers : life.answers = none ::ₘ answers) {nullCloses : List SessionReqOp}
    (hnull : nullCloses.length ≤ life.nullCloses.length + 1) :
    { life with answers := answers, nullCloses := nullCloses }.Balanced := by
  refine { h with decided := ?_, answered := ?_, held := ?_ }
  · have hdecided := h.decided
    rw [hanswers, Multiset.count_cons_self] at hdecided
    dsimp only
    omega
  · intro s hs
    apply h.answered
    rw [hanswers]
    exact Multiset.mem_cons_of_mem hs
  · intro hone
    have hheld := h.held hone
    rw [hanswers, Multiset.countP_cons_of_neg _ nofun] at hheld
    exact hheld

/-- An answer that carries a session is given back. -/
theorem answerClose (h : life.Balanced) {answers : Multiset (Option Nat)} {s : Nat}
    (hanswers : life.answers = some s ::ₘ answers) (op : SessionReqOp) :
    { life with
      answers := answers
      closes := life.closes ++ [(op, s)]
      closing := life.closing ++ [op] }.Balanced := by
  refine { h with decided := ?_, answered := ?_, closed := ?_, held := ?_, queued := ?_ }
  · have hdecided := h.decided
    rw [hanswers, Multiset.count_cons_of_ne (Option.some_ne_none s).symm] at hdecided
    exact hdecided
  · intro s' hs
    apply h.answered
    rw [hanswers]
    exact Multiset.mem_cons_of_mem hs
  · intro close hclose
    rcases List.mem_append.mp hclose with hold | hnew
    · exact h.closed close hold
    · rw [List.mem_singleton.mp hnew]
      apply h.answered
      rw [hanswers]
      exact Multiset.mem_cons_self (some s) answers
  · intro hone
    have hheld := h.held hone
    rw [hanswers, countP_some_cons] at hheld
    rw [List.length_append, List.length_singleton]
    change life.closes.length + 1 + _ + life.inSession = _
    dsimp only
    omega
  · rw [List.map_append, h.queued, List.append_assoc]
    rfl

/-- An answer that carries a session puts the connection in it. -/
theorem answerEnter (h : life.Balanced) {answers : Multiset (Option Nat)} {s : Nat}
    (hanswers : life.answers = some s ::ₘ answers) (hin : changed.connState = .inSession)
    (hup : changed.upstream = .session s) :
    { life with conn := some changed, answers := answers }.Balanced := by
  refine { h with decided := ?_, entered := ?_, answered := ?_, held := ?_ }
  · have hdecided := h.decided
    rw [hanswers, Multiset.count_cons_of_ne (Option.some_ne_none s).symm] at hdecided
    exact hdecided
  · intro found hfound _
    obtain rfl := Option.some.inj hfound
    refine ⟨s, hup, h.answered s ?_⟩
    rw [hanswers]
    exact Multiset.mem_cons_self (some s) answers
  · intro s' hs
    apply h.answered
    rw [hanswers]
    exact Multiset.mem_cons_of_mem hs
  · intro hone
    have hheld := h.held hone
    rw [hanswers, countP_some_cons] at hheld
    rw [inSession_eq_one rfl hin]
    dsimp only at hone ⊢
    omega

theorem finish (h : life.Balanced) {closing : List SessionReqOp} {op : SessionReqOp} {s : Nat}
    {will : Option (Will π)} (hclosing : life.closing = op :: closing)
    (haccepted : (s, will) ∈ life.accepts) :
    { life with
      closing := closing
      finished := life.finished ++ [(op, will)]
      wills := life.wills ++ (willOnClose op will).toList }.Balanced := by
  refine { h with queued := ?_, published := ?_, finishedWill := ?_ }
  · rw [h.queued, hclosing, List.map_append, List.append_assoc]
    rfl
  · rw [h.published, List.filterMap_append]
    cases hwill : willOnClose op will <;> simp [hwill]
  · intro close hclose
    rcases List.mem_append.mp hclose with hold | hnew
    · exact h.finishedWill close hold
    · rw [List.mem_singleton.mp hnew]
      exact List.mem_map.mpr ⟨(s, will), haccepted, rfl⟩

end Balanced

theorem balanced_step {life next : Lifecycle π} (h : life.Balanced) (hstep : life.Step next) :
    next.Balanced := by
  cases hstep with
  | stutter => exact h
  | appear hnew hidle hempty =>
      exact h.setIdle (by simp [inSession, hnew]) (by simp [hidle]) life.ends
  | closeIdle hconn hopen hidle =>
      apply h.setIdle (inSession_eq_zero hconn hidle)
      exact hidle
  | closeAttached draining hconn hopen hin hup => exact h.detach hconn hin hup (by simp) _ _
  | stop hconn hidle =>
      refine h.setIdle (inSession_eq_zero hconn ?_) ?_ life.ends
      · simp [hidle]
      · simp [hidle]
  | connect will hconn hup hreadable =>
      have hidle := h.not_in_of_broker hconn hup
      exact h.connect will (inSession_eq_zero hconn hidle) (by simp) life.ends (.inr rfl)
  | connectRefuse will ends hconn hup hstarting =>
      have hidle := h.not_in_of_broker hconn hup
      exact h.connect will (inSession_eq_zero hconn hidle) (by simp [hstarting]) ends (.inl rfl)
  | disconnectIdle hconn hreadable hidle hgate =>
      exact h.setIdle (inSession_eq_zero hconn hidle) (by simp) _
  | disconnectAttached hconn hin hup => exact h.detach hconn hin hup (by simp) _ _
  | refuse will hdeciding => exact h.refuse hdeciding
  | accept will s hdeciding => exact h.accept s hdeciding
  | answerNull op hanswers => exact h.answerNone hanswers (by simp)
  | answerClose hanswers hconn op hclose hop => exact h.answerClose hanswers op
  | answerEnter hanswers hconn hconnected hpending => exact h.answerEnter hanswers rfl rfl
  | answerRefuse hanswers => exact h.answerNone hanswers (Nat.le_succ _)
  | finish hclosing haccepted => exact h.finish hclosing haccepted

/-! ### The first end decides -/

/-- Before its CONNECT a connection is read until its first end. -/
def Fresh (life : Lifecycle π) : Prop :=
  (life.conn = none ∧ life.ends = []) ∨ ∃ conn, life.conn = some conn ∧
    conn.connState = .noSession ∧ conn.draining = false ∧
    (conn.state ≠ .disconnected → life.ends = [])

/-- A connection with one CONNECT that is not refused. How it closes its
session follows from its first end. -/
inductive Phase (conn : ClientConn) (closes : List (SessionReqOp × Nat)) : List ConnEnd → Prop where
  | running (hstate : conn.state = .connected) (hgate : conn.connState ≠ .noSession)
      (hnone : closes = []) : Phase conn closes []
  | left (rest : List ConnEnd) (hidle : conn.connState = .noSession)
      (hops : ∀ close ∈ closes, close.1 = .sessionDisconnect) :
      Phase conn closes (.disconnect :: rest)
  | lostWaiting (rest : List ConnEnd) (hstate : conn.state = .disconnected)
      (hgate : conn.connState ≠ .noSession) (hout : conn.connState ≠ .inSession)
      (hempty : conn.draining = false) (hops : ∀ close ∈ closes, close.1 = .sessionForceClose) :
      Phase conn closes (.tcpClosed :: rest)
  | lostInSession (rest : List ConnEnd) (hstate : conn.state = .disconnected)
      (hidle : conn.connState = .noSession) (hdone : closes ≠ [])
      (hops : ∀ close ∈ closes, close.1 = .sessionForceClose) :
      Phase conn closes (.tcpClosed :: rest)

namespace Phase

variable {conn : ClientConn} {closes : List (SessionReqOp × Nat)} {ends : List ConnEnd}

theorem closeIdle (h : Phase conn closes ends) (hopen : conn.state ≠ .disconnected)
    (hidle : conn.connState ≠ .inSession) :
    Phase { conn with state := .disconnected, draining := false } closes
      (ends ++ [.tcpClosed]) := by
  cases h with
  | running hstate hgate hnone =>
      subst hnone
      exact .lostWaiting [] rfl hgate hidle rfl nofun
  | left rest hidle hops =>
      rw [List.cons_append]
      apply Phase.left
      · exact hidle
      · exact hops
  | lostWaiting rest hstate => exact (hopen hstate).elim
  | lostInSession rest hstate => exact (hopen hstate).elim

theorem closeAttached (h : Phase conn closes ends) (draining : Bool) (s : Nat)
    (hopen : conn.state ≠ .disconnected) (hin : conn.connState = .inSession) :
    Phase { conn with state := .disconnected, connState := .noSession, draining := draining }
      (closes ++ [(.sessionForceClose, s)]) (ends ++ [.tcpClosed]) := by
  cases h with
  | running hstate hgate hnone =>
      subst hnone
      exact .lostInSession [] rfl rfl (List.cons_ne_nil _ _) (by simp)
  | left rest hidle hops =>
      rw [hin] at hidle
      cases hidle
  | lostWaiting rest hstate => exact (hopen hstate).elim
  | lostInSession rest hstate => exact (hopen hstate).elim

theorem stop (h : Phase conn closes ends) (hidle : conn.connState = .noSession) :
    Phase { conn with draining := false } closes ends := by
  cases h with
  | running hstate hgate hnone => exact (hgate hidle).elim
  | left rest hidle hops => exact .left rest hidle hops
  | lostWaiting rest hstate hgate => exact (hgate hidle).elim
  | lostInSession rest hstate hidle hdone hops => exact .lostInSession rest hstate hidle hdone hops

theorem disconnectIdle (h : Phase conn closes ends)
    (hreadable : conn.state = .connected ∨ conn.draining = true)
    (hgate : conn.connState ≠ .noSession) :
    Phase { conn with connState := .noSession, upstream := .broker } closes
      (ends ++ [.disconnect]) := by
  cases h with
  | running hstate hgate hnone =>
      subst hnone
      exact .left [] rfl nofun
  | left rest hidle => exact (hgate hidle).elim
  | lostWaiting rest hstate _ _ hempty =>
      rw [hstate, hempty] at hreadable
      simp at hreadable
  | lostInSession rest hstate hidle => exact (hgate hidle).elim

theorem disconnectAttached (h : Phase conn closes ends) (s : Nat)
    (hin : conn.connState = .inSession) :
    Phase { conn with connState := .noSession, upstream := .broker }
      (closes ++ [(.sessionDisconnect, s)]) (ends ++ [.disconnect]) := by
  cases h with
  | running hstate hgate hnone =>
      subst hnone
      exact .left [] rfl (by simp)
  | left rest hidle =>
      rw [hin] at hidle
      cases hidle
  | lostWaiting rest hstate hgate hout => exact (hout hin).elim
  | lostInSession rest hstate hidle =>
      rw [hin] at hidle
      cases hidle

/-- The answer that is given back is the only session of the connection, so
nothing was closed before. -/
theorem answerClose (h : Phase conn closes ends) (hnone : closes = []) (s : Nat)
    {op : SessionReqOp} (hclose : conn.connState = .noSession ∨ conn.state ≠ .connected)
    (hop : op = if conn.connState = .noSession then .sessionDisconnect else .sessionForceClose) :
    Phase conn (closes ++ [(op, s)]) ends := by
  subst hnone
  cases h with
  | running hstate hgate => exact (hclose.elim hgate fun hlost => hlost hstate).elim
  | left rest hidle => exact .left rest hidle (by simp [hop, hidle])
  | lostWaiting rest hstate hgate hout hempty =>
      exact .lostWaiting rest hstate hgate hout hempty (by simp [hop, hgate])
  | lostInSession rest hstate hidle hdone => exact (hdone rfl).elim

theorem answerEnter (h : Phase conn closes ends) (s : Nat) (hconnected : conn.state = .connected)
    (hpending : conn.connState ≠ .noSession) :
    Phase { conn with upstream := .session s, connState := .inSession } closes ends := by
  cases h with
  | running hstate hgate hnone => exact .running hstate (by simp) hnone
  | left rest hidle => exact (hpending hidle).elim
  | lostWaiting rest hstate =>
      rw [hconnected] at hstate
      cases hstate
  | lostInSession rest hstate =>
      rw [hconnected] at hstate
      cases hstate

end Phase

structure Timely (life : Lifecycle π) : Prop where
  fresh : life.connects = [] → life.Fresh
  phase : life.connects.length = 1 → life.accepts.length + life.deciding.card = 1 →
    ∃ conn, life.conn = some conn ∧ Phase conn life.closes life.ends

theorem timely_init : (init : Lifecycle π).Timely := by
  constructor
  · intro _
    exact .inl ⟨rfl, rfl⟩
  · intro hone
    cases hone

/-- Before its CONNECT a connection has passed no check of its state. -/
theorem Fresh.noSession {life : Lifecycle π} (h : life.Fresh) {conn : ClientConn}
    (hconn : life.conn = some conn) : conn.connState = .noSession := by
  rcases h with ⟨hnone, -⟩ | ⟨found, hfound, hidle, -⟩
  · rw [hnone] at hconn
    cases hconn
  · obtain rfl := Option.some.inj (hconn.symm.trans hfound)
    exact hidle

/-- The phase that a connection is in when one of its fields changes. -/
theorem Timely.phase_of {life : Lifecycle π} (h : life.Timely) {conn : ClientConn}
    (hconn : life.conn = some conn) (hone : life.connects.length = 1)
    (hsum : life.accepts.length + life.deciding.card = 1) : Phase conn life.closes life.ends := by
  obtain ⟨found, hfound, hphase⟩ := h.phase hone hsum
  obtain rfl := Option.some.inj (hconn.symm.trans hfound)
  exact hphase

/-- The connection of a life changes, and no CONNECT of it is sent or decided. -/
theorem Timely.moves {life : Lifecycle π} (h : life.Timely) {conn changed : ClientConn}
    (hconn : life.conn = some conn) {ends : List ConnEnd} {closes : List (SessionReqOp × Nat)}
    {answers : Multiset (Option Nat)} {closing : List SessionReqOp}
    (hfresh : life.Fresh → { life with conn := some changed, ends := ends }.Fresh)
    (hphase : Phase conn life.closes life.ends → Phase changed closes ends) :
    { life with conn := some changed, ends := ends, closes := closes, answers := answers,
                closing := closing }.Timely := by
  constructor
  · intro hnone
    exact hfresh (h.fresh hnone)
  · intro hone hsum
    exact ⟨changed, rfl, hphase (h.phase_of hconn hone hsum)⟩

/-- A connection that has passed a check of its state is not before its CONNECT. -/
theorem Fresh.of_gate {life next : Lifecycle π} {conn : ClientConn} (hconn : life.conn = some conn)
    (hgate : conn.connState ≠ .noSession) (h : life.Fresh) : next.Fresh :=
  (hgate (h.noSession hconn)).elim

theorem Timely.appear {life : Lifecycle π} (h : life.Timely) {conn : ClientConn}
    (hnew : life.conn = none) (hidle : conn.connState = .noSession)
    (hempty : conn.draining = false) : { life with conn := some conn }.Timely := by
  constructor
  · intro hnone
    have hends : life.ends = [] := by
      rcases h.fresh hnone with ⟨-, hends⟩ | ⟨found, hfound, -⟩
      · exact hends
      · rw [hnew] at hfound
        cases hfound
    exact .inr ⟨conn, rfl, hidle, hempty, fun _ => hends⟩
  · intro hone hsum
    obtain ⟨found, hfound, -⟩ := h.phase hone hsum
    rw [hnew] at hfound
    cases hfound

/-- A CONNECT that the life counts as its only one is its first packet. -/
theorem Timely.connect {life : Lifecycle π} (h : life.Timely) (hbalanced : life.Balanced)
    {conn : ClientConn} (will : Option (Will π)) (hconn : life.conn = some conn)
    (hreadable : conn.state = .connected ∨ conn.draining = true) :
    { life with
      conn := some { conn with connState := .startingSession }
      connects := life.connects ++ [will]
      deciding := will ::ₘ life.deciding }.Timely := by
  constructor
  · intro hnone
    simp at hnone
  · intro hone hsum
    have hnone : life.connects = [] := by
      simpa using hone
    have hdecided := hbalanced.decided
    rw [hnone] at hdecided
    have haccepts : life.accepts.length = 0 := by
      simp only [List.length_nil] at hdecided
      omega
    have hheld := hbalanced.held (by omega)
    have hcloses : life.closes = [] := List.length_eq_zero_iff.mp (by omega)
    rcases h.fresh hnone with ⟨hgone, -⟩ | ⟨found, hfound, -, hempty, hends⟩
    · rw [hgone] at hconn
      cases hconn
    · obtain rfl := Option.some.inj (hconn.symm.trans hfound)
      have hstate : conn.state = .connected := by simpa [hempty] using hreadable
      have hends := hends (by simp [hstate])
      refine ⟨_, rfl, ?_⟩
      dsimp only
      rw [hends]
      exact .running hstate (by simp) hcloses

theorem timely_step {life next : Lifecycle π} (hbalanced : life.Balanced) (h : life.Timely)
    (hstep : life.Step next) : next.Timely := by
  cases hstep with
  | stutter => exact h
  | appear hnew hidle hempty => exact h.appear hnew hidle hempty
  | closeIdle hconn hopen hidle =>
      apply h.moves hconn
      · intro hfresh
        have hidle := hfresh.noSession hconn
        exact .inr ⟨_, rfl, hidle, rfl, fun hstate => (hstate rfl).elim⟩
      · exact fun hphase => hphase.closeIdle hopen hidle
  | @closeAttached conn s draining hconn hopen hin hup =>
      apply h.moves hconn
      · exact Fresh.of_gate hconn (by simp [hin])
      · exact fun hphase => hphase.closeAttached draining s hopen hin
  | @stop conn hconn hidle =>
      apply h.moves hconn
      · rintro (⟨hgone, -⟩ | ⟨found, hfound, -, -, hends⟩)
        · rw [hgone] at hconn
          cases hconn
        · obtain rfl := Option.some.inj (hconn.symm.trans hfound)
          exact .inr ⟨_, rfl, hidle, rfl, hends⟩
      · exact fun hphase => hphase.stop hidle
  | connect will hconn hup hreadable => exact h.connect hbalanced will hconn hreadable
  | connectRefuse will ends hconn hup hstarting =>
      constructor
      · intro hnone
        simp at hnone
      · intro hone hsum
        have hnone : life.connects = [] := by
          simpa using hone
        have hdecided := hbalanced.decided
        simp only [hnone, List.length_nil] at hdecided hsum
        omega
  | disconnectIdle hconn hreadable hidle hgate =>
      apply h.moves hconn
      · exact Fresh.of_gate hconn hgate
      · exact fun hphase => hphase.disconnectIdle hreadable hgate
  | @disconnectAttached conn s hconn hin hup =>
      apply h.moves hconn
      · exact Fresh.of_gate hconn (by simp [hin])
      · exact fun hphase => hphase.disconnectAttached s hin
  | refuse will hdeciding =>
      refine ⟨h.fresh, ?_⟩
      intro hone hsum
      have hdecided := hbalanced.decided
      rw [hdeciding, Multiset.card_cons] at hdecided
      dsimp only at hone hsum
      omega
  | accept will s hdeciding =>
      refine ⟨h.fresh, ?_⟩
      intro hone hsum
      refine h.phase hone ?_
      rw [hdeciding, Multiset.card_cons]
      simp only [List.length_append, List.length_singleton] at hsum
      omega
  | answerNull op hanswers => exact ⟨h.fresh, h.phase⟩
  | @answerClose conn answers s hanswers hconn op hclose hop =>
      refine ⟨h.fresh, ?_⟩
      intro hone hsum
      dsimp only at hone hsum
      have hheld := hbalanced.held (by omega)
      rw [hanswers, countP_some_cons] at hheld
      have hcloses : life.closes = [] := List.length_eq_zero_iff.mp (by omega)
      exact ⟨conn, hconn, (h.phase_of hconn hone hsum).answerClose hcloses s hclose hop⟩
  | @answerEnter conn answers s hanswers hconn hconnected hpending =>
      apply h.moves hconn
      · exact Fresh.of_gate hconn hpending
      · exact fun hphase => hphase.answerEnter s hconnected hpending
  | answerRefuse hanswers => exact ⟨h.fresh, h.phase⟩
  | finish hclosing haccepted => exact ⟨h.fresh, h.phase⟩

/-! ### Whole lives -/

theorem balanced_timely_of_steps {life : Lifecycle π}
    (hsteps : Relation.ReflTransGen Step init life) : life.Balanced ∧ life.Timely := by
  induction hsteps with
  | refl => exact ⟨Balanced.init, timely_init⟩
  | tail _ hstep ih => exact ⟨balanced_step ih.1 hstep, timely_step ih.1 ih.2 hstep⟩

def Settled (life : Lifecycle π) : Prop := life.answers = 0 ∧ life.closing = []

/-- The session `s` with this will is closed by one request, which publishes
the will if the connection was lost and does not if it was left. -/
def ClosesOnce (life : Lifecycle π) (s : Nat) (will : Will π) : Prop :=
  match life.ends.head? with
  | none => life.closes = [] ∧ life.wills = []
  | some .disconnect => life.closes <+: [(.sessionDisconnect, s)] ∧ life.wills = [] ∧
      (life.Settled → life.closes = [(.sessionDisconnect, s)])
  | some .tcpClosed => life.closes <+: [(.sessionForceClose, s)] ∧ life.wills <+: [will] ∧
      (life.Settled → life.closes = [(.sessionForceClose, s)] ∧ life.wills = [will])

/-- The requests for the only session of a connection. -/
theorem Balanced.closes_cases {life : Lifecycle π} (h : life.Balanced) {s : Nat}
    {will : Option (Will π)} (haccepts : life.accepts = [(s, will)]) :
    (life.closes = [] ∧ life.finished = []) ∨
      ∃ op, life.closes = [(op, s)] ∧ (life.finished = [] ∨ life.finished = [(op, will)]) := by
  have hheld := h.held (by simp [haccepts])
  have hqueued := h.queued
  have hfinished := h.finishedWill
  rw [haccepts, List.length_singleton] at hheld
  rcases hcloses : life.closes with _ | ⟨⟨op, s'⟩, _ | ⟨second, rest⟩⟩
  · left
    rw [hcloses] at hqueued
    simpa using (List.append_eq_nil_iff.mp hqueued.symm).1
  · right
    have hname := h.closed (op, s') (by simp [hcloses])
    obtain rfl : s' = s := by simpa [haccepts] using hname
    refine ⟨op, rfl, ?_⟩
    rw [hcloses] at hqueued
    rcases hdone : life.finished with _ | ⟨⟨op', will'⟩, others⟩
    · exact .inl rfl
    · right
      have hwill := hfinished (op', will') (by simp [hdone])
      rw [hdone] at hqueued
      simp only [List.map_cons, List.map_nil, List.cons_append, List.cons.injEq, List.nil_eq,
        List.append_eq_nil_iff, List.map_eq_nil_iff] at hqueued
      obtain ⟨rfl, rfl, -⟩ := hqueued
      simp only [haccepts, List.map_cons, List.map_nil, List.mem_singleton] at hwill
      rw [hwill]
  · rw [hcloses] at hheld
    simp only [List.length_cons] at hheld
    omega

/-- Once everything arrived, the only session was closed. -/
theorem Balanced.closes_of_settled {life : Lifecycle π} (h : life.Balanced) {s : Nat}
    {will : Option (Will π)} (haccepts : life.accepts = [(s, will)]) (hsettled : life.Settled)
    (hout : life.inSession = 0) :
    ∃ op, life.closes = [(op, s)] ∧ life.finished = [(op, will)] := by
  obtain ⟨hanswers, hclosing⟩ := hsettled
  have hheld := h.held (by simp [haccepts])
  rw [haccepts, hanswers, hout] at hheld
  have hqueued := h.queued
  rw [hclosing, List.append_nil] at hqueued
  rcases h.closes_cases haccepts with ⟨hcloses, -⟩ | ⟨op, hcloses, hfinished⟩
  · rw [hcloses] at hheld
    simp at hheld
  · refine ⟨op, hcloses, hfinished.resolve_left ?_⟩
    intro hnone
    rw [hcloses, hnone] at hqueued
    simp at hqueued

theorem Phase.out_of_session {conn : ClientConn} {closes : List (SessionReqOp × Nat)}
    {first : ConnEnd} {rest : List ConnEnd} (h : Phase conn closes (first :: rest)) :
    conn.connState ≠ .inSession := by
  cases h with
  | left _ hidle => simp [hidle]
  | lostWaiting _ _ _ hout => exact hout
  | lostInSession _ _ hidle => simp [hidle]

/-- The operation of every close request follows from the first end. -/
theorem Phase.ops {conn : ClientConn} {closes : List (SessionReqOp × Nat)}
    {first : ConnEnd} {rest : List ConnEnd} (h : Phase conn closes (first :: rest)) :
    ∀ close ∈ closes, close.1 = first.op := by
  cases h with
  | left _ _ hops => exact hops
  | lostWaiting _ _ _ _ _ hops => exact hops
  | lostInSession _ _ _ _ hops => exact hops

/-- What the requests for the only session publish. -/
theorem Balanced.closes_of_ops {life : Lifecycle π} (h : life.Balanced) {s : Nat}
    {will : Option (Will π)} (haccepts : life.accepts = [(s, will)]) {op : SessionReqOp}
    (hops : ∀ close ∈ life.closes, close.1 = op) (hout : life.inSession = 0) :
    life.closes <+: [(op, s)] ∧ life.wills <+: (willOnClose op will).toList ∧
      (life.Settled → life.closes = [(op, s)] ∧ life.wills = (willOnClose op will).toList) := by
  have hsame : ∀ op', life.closes = [(op', s)] → op' = op := by
    intro op' hcloses
    exact hops (op', s) (by simp [hcloses])
  have hwills : ∀ finished, life.finished = finished →
      life.wills = finished.filterMap fun close => willOnClose close.1 close.2 := by
    rintro finished rfl
    exact h.published
  have hone : ([(op, will)].filterMap fun close => willOnClose close.1 close.2)
      = (willOnClose op will).toList := by
    cases hwill : willOnClose op will <;> simp [hwill]
  refine ⟨?_, ?_, ?_⟩
  · rcases h.closes_cases haccepts with ⟨hcloses, -⟩ | ⟨op', hcloses, -⟩
    · rw [hcloses]
      exact List.nil_prefix
    · rw [hcloses, hsame op' hcloses]
  · rcases h.closes_cases haccepts with ⟨-, hfinished⟩ | ⟨op', hcloses, hfinished | hfinished⟩
    · rw [hwills _ hfinished]
      exact List.nil_prefix
    · rw [hwills _ hfinished]
      exact List.nil_prefix
    · rw [hwills _ hfinished, hsame op' hcloses, hone]
  · intro hsettled
    obtain ⟨op', hcloses, hfinished⟩ := h.closes_of_settled haccepts hsettled hout
    obtain rfl := hsame op' hcloses
    exact ⟨hcloses, (hwills _ hfinished).trans hone⟩

theorem closesOnce_of_steps {life : Lifecycle π} (hsteps : Relation.ReflTransGen Step init life)
    {will : Will π} (hconnects : life.connects = [some will]) (haccepts : life.accepts ≠ []) :
    ∃ s, life.accepts = [(s, some will)] ∧ life.nullCloses = [] ∧ life.ClosesOnce s will := by
  obtain ⟨hbalanced, htimely⟩ := balanced_timely_of_steps hsteps
  have hdecided := hbalanced.decided
  rw [hconnects, List.length_singleton] at hdecided
  have hpositive := List.length_pos_of_ne_nil haccepts
  obtain ⟨⟨s, will'⟩, hone⟩ := List.length_eq_one_iff.mp
    (show life.accepts.length = 1 by omega)
  obtain rfl : will' = some will := by
    simpa [hconnects] using hbalanced.accepted (s, will') (by simp [hone])
  refine ⟨s, hone, List.length_eq_zero_iff.mp (by omega), ?_⟩
  obtain ⟨conn, hconn, hphase⟩ := htimely.phase (by simp [hconnects]) (by omega)
  unfold ClosesOnce
  rcases hends : life.ends with _ | ⟨first, rest⟩
  · rw [hends] at hphase
    cases hphase with
    | running hstate hgate hnone =>
        refine ⟨hnone, ?_⟩
        rcases hbalanced.closes_cases hone with ⟨-, hfinished⟩ | ⟨op, hcloses, -⟩
        · simpa [hfinished] using hbalanced.published
        · rw [hnone] at hcloses
          cases hcloses
  · rw [hends] at hphase
    have hout := inSession_eq_zero hconn hphase.out_of_session
    obtain ⟨hcloses, hwills, hsettled⟩ := hbalanced.closes_of_ops hone hphase.ops hout
    cases first with
    | disconnect => exact ⟨hcloses, List.prefix_nil.mp hwills, fun h => (hsettled h).1⟩
    | tcpClosed => exact ⟨hcloses, hwills, hsettled⟩

end Lifecycle

end TinyMqtt
