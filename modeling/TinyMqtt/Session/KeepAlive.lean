import Mathlib.Data.Nat.Size
import TinyMqtt.Base.Integer
import TinyMqtt.Conn.TcpConn
import TinyMqtt.Lib.Run

/-!
The two keep-alive checks: `ping` of the client and `mqtt_keepalive` of the
broker. Both go through the macro `SEC_US`, which takes the type of its
argument: the client multiplies integers of 32 bits, the broker floating-point
numbers. An operation on signed integers whose result does not fit has no
result.
-/

namespace TinyMqtt

open Run

/-! ### Arithmetic -/

def checkedInt32 (n : Int) : Option Int := if -2 ^ 31 ≤ n ∧ n < 2 ^ 31 then some n else none

/-- A `double` that is finite and not negative: a number of 53 bits, and the
power of two it is multiplied with. The range of the powers is left out. -/
structure Double where
  mantissa : Nat
  exponent : Int
  deriving DecidableEq, Repr

namespace Double

/-- The nearest `double`, an even one between two. -/
def round (mantissa : Nat) (exponent : Int) : Double :=
  let shift := mantissa.size - 53
  if shift = 0 then ⟨mantissa, exponent⟩
  else
    let quotient := mantissa / 2 ^ shift
    let rest := mantissa % 2 ^ shift
    let down := rest < 2 ^ (shift - 1) ∨ rest = 2 ^ (shift - 1) ∧ quotient % 2 = 0
    ⟨if down then quotient else quotient + 1, exponent + shift⟩

def mul (x y : Double) : Double := round (x.mantissa * y.mantissa) (x.exponent + y.exponent)

/-- The conversion of an integer that has 53 bits at most. -/
def ofNat (n : Nat) : Double := ⟨n, 0⟩

def oneAndHalf : Double := ⟨3, -1⟩

/-- The conversion to `int64_t`, which cuts off what stands behind the point. -/
def toInt64 (x : Double) : Option Int :=
  checkedInt64 (if 0 ≤ x.exponent then x.mantissa * 2 ^ x.exponent.toNat
    else (x.mantissa / 2 ^ (-x.exponent).toNat : Nat))

/-- A product of 53 bits is exact. -/
theorem mul_eq {x y : Double} (h : x.mantissa * y.mantissa < 2 ^ 53) :
    x.mul y = ⟨x.mantissa * y.mantissa, x.exponent + y.exponent⟩ := by
  have hsize : (x.mantissa * y.mantissa).size ≤ 53 := Nat.size_le.mpr h
  exact if_pos (Nat.sub_eq_zero_of_le hsize)

end Double

/-! ### The checks -/

/-- The condition under which `ping` takes the server for dead. -/
def ping (keepAlive : UInt16) (now lastPktTs : Int64) : Option Bool := do
  let idle ← checkedInt64 (now.toInt - lastPktTs.toInt)
  let secUs ← checkedInt32 (keepAlive.toNat * 1000000)
  let limit ← checkedInt32 (2 * secUs)
  some (decide (limit < idle))

/-- A connection of the broker, with what `mqtt_keepalive` reads of its
session. -/
structure KeepAliveConn where
  connState : ConnState
  keepAlive : UInt16
  lastPktTs : Int64
  deriving DecidableEq, Repr

/-- The body of the loop of `mqtt_keepalive`. -/
def KeepAliveConn.timedOut (conn : KeepAliveConn) (now : Int64) : Option Bool :=
  if conn.connState ≠ .inSession then some false
  else if conn.keepAlive = 0 then some false
  else do
    let duration ← checkedInt64 (now.toInt - conn.lastPktTs.toInt)
    let limit ← (((Double.ofNat conn.keepAlive.toNat).mul .oneAndHalf).mul
      (Double.ofNat 1000000)).toInt64
    some (decide (limit ≤ duration))

/-- `mqtt_keepalive`: the connections that it closes. -/
def mqttKeepalive (now : Int64) : List KeepAliveConn → Option (List KeepAliveConn)
  | [] => some []
  | conn :: conns => do
      let timedOut ← conn.timedOut now
      let timeoutConns ← mqttKeepalive now conns
      some (if timedOut then conn :: timeoutConns else timeoutConns)

/-- What the client has to find out: whether the server was silent for twice
the keep-alive time. -/
def ServerSilent (keepAlive : UInt16) (now lastPktTs : Int64) : Prop :=
  2000000 * (keepAlive.toNat : Int) < now.toInt - lastPktTs.toInt

instance (keepAlive : UInt16) (now lastPktTs : Int64) :
    Decidable (ServerSilent keepAlive now lastPktTs) :=
  inferInstanceAs (Decidable (_ < _))

/-- What the broker has to find out: whether a client that promised to be heard
was silent for one and a half times its keep-alive time. -/
def ClientSilent (now : Int64) (conn : KeepAliveConn) : Prop :=
  conn.connState = .inSession ∧ 0 < conn.keepAlive.toNat ∧
    1500000 * (conn.keepAlive.toNat : Int) ≤ now.toInt - conn.lastPktTs.toInt

instance (now : Int64) (conn : KeepAliveConn) : Decidable (ClientSilent now conn) :=
  inferInstanceAs (Decidable (_ ∧ _ ∧ _))

/-- The difference of two times fits into `int64_t`. -/
def DifferenceFits (now lastPktTs : Int64) : Prop := now.toInt - lastPktTs.toInt < 2 ^ 63

instance (now lastPktTs : Int64) : Decidable (DifferenceFits now lastPktTs) :=
  inferInstanceAs (Decidable (_ < _))

theorem checkedInt64_of_fits {now lastPktTs : Int64} (hle : lastPktTs.toInt ≤ now.toInt)
    (hfits : DifferenceFits now lastPktTs) :
    checkedInt64 (now.toInt - lastPktTs.toInt) = some (now.toInt - lastPktTs.toInt) := by
  apply if_pos
  unfold DifferenceFits at hfits
  omega

theorem checkedInt64_of_not_fits {now lastPktTs : Int64}
    (hfits : ¬DifferenceFits now lastPktTs) :
    checkedInt64 (now.toInt - lastPktTs.toInt) = none := by
  apply if_neg
  unfold DifferenceFits at hfits
  omega

theorem ping_eq {keepAlive : UInt16} (hsmall : keepAlive.toNat ≤ 1073) {now lastPktTs : Int64}
    (hle : lastPktTs.toInt ≤ now.toInt) (hfits : DifferenceFits now lastPktTs) :
    ping keepAlive now lastPktTs = some (decide (ServerSilent keepAlive now lastPktTs)) := by
  have hsec : checkedInt32 (keepAlive.toNat * 1000000)
      = some ((keepAlive.toNat : Int) * 1000000) := by
    rw [checkedInt32, if_pos (by omega)]
  have hlimit : checkedInt32 (2 * ((keepAlive.toNat : Int) * 1000000))
      = some (2000000 * (keepAlive.toNat : Int)) := by
    rw [checkedInt32, if_pos (by omega), Option.some.injEq]
    omega
  rw [ping, checkedInt64_of_fits hle hfits, hsec, Option.bind_eq_bind, Option.bind_some,
    Option.bind_some, hlimit, Option.bind_some, Option.some.injEq, decide_eq_decide, ServerSilent]

/-- The client's product overflows for more than 1073 seconds. -/
theorem ping_of_large {keepAlive : UInt16} (hlarge : 1073 < keepAlive.toNat)
    (now lastPktTs : Int64) : ping keepAlive now lastPktTs = none := by
  have hproduct : ∀ secUs, checkedInt32 (keepAlive.toNat * 1000000) = some secUs →
      checkedInt32 (2 * secUs) = none := by
    intro secUs hsec
    obtain ⟨-, hsame⟩ := Option.ite_none_right_eq_some.mp hsec
    obtain rfl := Option.some.inj hsame
    exact if_neg (by omega)
  rw [ping, Option.bind_eq_bind, Option.bind_eq_none_iff]
  intro idle _
  rw [Option.bind_eq_none_iff]
  intro secUs hsec
  rw [hproduct secUs hsec]
  rfl

theorem ping_iff (keepAlive : UInt16) {now lastPktTs : Int64}
    (hle : lastPktTs.toInt ≤ now.toInt) :
    ping keepAlive now lastPktTs = some (decide (ServerSilent keepAlive now lastPktTs)) ↔
      keepAlive.toNat ≤ 1073 ∧ DifferenceFits now lastPktTs := by
  constructor
  · intro hping
    refine ⟨?_, ?_⟩
    · by_contra hlarge
      rw [ping_of_large (not_le.mp hlarge)] at hping
      cases hping
    · by_contra hfits
      rw [ping, checkedInt64_of_not_fits hfits] at hping
      cases hping
  · rintro ⟨hsmall, hfits⟩
    exact ping_eq hsmall hle hfits

/-- The broker's product has 37 bits at most, and is exact. -/
theorem keepAliveLimit_eq (keepAlive : UInt16) :
    (((Double.ofNat keepAlive.toNat).mul .oneAndHalf).mul (Double.ofNat 1000000)).toInt64
      = some (1500000 * (keepAlive.toNat : Int)) := by
  have hlt := keepAlive.toNat_lt
  have hfirst : (Double.ofNat keepAlive.toNat).mul .oneAndHalf = ⟨keepAlive.toNat * 3, -1⟩ :=
    Double.mul_eq (show keepAlive.toNat * 3 < 2 ^ 53 by omega)
  rw [hfirst, Double.mul_eq (show keepAlive.toNat * 3 * 1000000 < 2 ^ 53 by omega)]
  have hhalf : keepAlive.toNat * 3 * 1000000 / 2 ^ 1 = 1500000 * keepAlive.toNat := by omega
  change checkedInt64 ((keepAlive.toNat * 3 * 1000000 / 2 ^ 1 : Nat) : Int) = _
  rw [hhalf, checkedInt64, if_pos (by omega), Option.some.injEq]
  push_cast
  rfl

/-- The broker's times can be subtracted where it looks at them. -/
def KeepAliveConn.TimesFit (conn : KeepAliveConn) (now : Int64) : Prop :=
  conn.connState = .inSession → conn.keepAlive ≠ 0 → DifferenceFits now conn.lastPktTs

theorem KeepAliveConn.timedOut_eq {conn : KeepAliveConn} {now : Int64}
    (hle : conn.lastPktTs.toInt ≤ now.toInt) (hfits : conn.TimesFit now) :
    conn.timedOut now = some (decide (ClientSilent now conn)) := by
  by_cases hstate : conn.connState = .inSession
  · by_cases hzero : conn.keepAlive = 0
    · have hsilent : ¬ClientSilent now conn := by
        rintro ⟨-, hpos, -⟩
        rw [hzero] at hpos
        exact absurd hpos (lt_irrefl 0)
      simp [timedOut, hzero, hsilent]
    · have hpos : 0 < conn.keepAlive.toNat := by
        rw [Nat.pos_iff_ne_zero]
        intro hnat
        exact hzero (UInt16.toNat_inj.mp hnat)
      rw [timedOut, if_neg (not_not.mpr hstate), if_neg hzero, keepAliveLimit_eq,
        checkedInt64_of_fits hle (hfits hstate hzero)]
      simp only [Option.bind_eq_bind, Option.bind_some, ClientSilent, hstate, hpos, true_and]
  · have hsilent : ¬ClientSilent now conn := fun h => hstate h.1
    simp [timedOut, hstate, hsilent]

theorem KeepAliveConn.timedOut_eq_none {conn : KeepAliveConn} {now : Int64}
    (hfits : ¬conn.TimesFit now) : conn.timedOut now = none := by
  simp only [TimesFit, not_forall] at hfits
  obtain ⟨hstate, hzero, hfits⟩ := hfits
  rw [timedOut, if_neg (not_not.mpr hstate), if_neg hzero, checkedInt64_of_not_fits hfits]
  rfl

theorem mqttKeepalive_eq {now : Int64} {conns : List KeepAliveConn}
    (hle : ∀ conn ∈ conns, conn.lastPktTs.toInt ≤ now.toInt)
    (hfits : ∀ conn ∈ conns, conn.TimesFit now) :
    mqttKeepalive now conns = some (conns.filter fun conn => decide (ClientSilent now conn)) := by
  induction conns with
  | nil => rfl
  | cons conn conns ih =>
      obtain ⟨hfirst, hothers⟩ := List.forall_mem_cons.mp hle
      obtain ⟨hfit, hrest⟩ := List.forall_mem_cons.mp hfits
      rw [mqttKeepalive, KeepAliveConn.timedOut_eq hfirst hfit, ih hothers hrest]
      by_cases hsilent : ClientSilent now conn <;> simp [hsilent]

theorem mqttKeepalive_eq_none {now : Int64} {conns : List KeepAliveConn} {conn : KeepAliveConn}
    (hmem : conn ∈ conns) (hfits : ¬conn.TimesFit now) : mqttKeepalive now conns = none := by
  induction conns with
  | nil => exact absurd hmem List.not_mem_nil
  | cons first conns ih =>
      rw [mqttKeepalive, Option.bind_eq_bind, Option.bind_eq_none_iff]
      intro timedOut hfirst
      rcases List.mem_cons.mp hmem with rfl | hmem
      · rw [KeepAliveConn.timedOut_eq_none hfits] at hfirst
        cases hfirst
      · rw [ih hmem]
        rfl

/-- The broker closes the connections that were silent, for every keep-alive
time. -/
theorem mqttKeepalive_iff {now : Int64} {conns : List KeepAliveConn}
    (hle : ∀ conn ∈ conns, conn.lastPktTs.toInt ≤ now.toInt) :
    mqttKeepalive now conns = some (conns.filter fun conn => decide (ClientSilent now conn)) ↔
      ∀ conn ∈ conns, conn.TimesFit now := by
  constructor
  · intro hclosed conn hmem
    by_contra hfits
    rw [mqttKeepalive_eq_none hmem hfits] at hclosed
    cases hclosed
  · exact mqttKeepalive_eq hle

/-! ### A client that pings -/

/-- The two sessions of a connection, and what has been sent: when the client
last pinged or was accepted, and whether its request and the answer to it are
still under way. -/
structure KeepAliveRun where
  clientTs : Int64
  brokerTs : Int64
  dropped : Bool
  lastPing : Int64
  requestDue : Bool
  answerDue : Bool
  now : Int64

/-- The client's timer, a PINGREQ that reaches the broker, the PINGRESP that
reaches the client, any other packet, and the broker's timer. -/
inductive KeepAliveEvent where
  | ping
  | pingReq
  | pingResp
  | packetToBroker
  | packetToClient
  | check

def keepAliveStep (keepAlive : UInt16) (s : KeepAliveRun) :
    Int64 × KeepAliveEvent → Option KeepAliveRun
  | (now, .ping) => do
      let dead ← ping keepAlive now s.clientTs
      some (if dead then { s with dropped := true, now := now }
        else { s with lastPing := now, requestDue := true, answerDue := true, now := now })
  | (now, .pingReq) => some { s with brokerTs := now, requestDue := false, now := now }
  | (now, .pingResp) => some { s with clientTs := now, answerDue := false, now := now }
  | (now, .packetToBroker) => some { s with brokerTs := now, now := now }
  | (now, .packetToClient) => some { s with clientTs := now, now := now }
  | (now, .check) => do
      let timedOut ← KeepAliveConn.timedOut ⟨.inSession, keepAlive, s.brokerTs⟩ now
      some { s with dropped := s.dropped || timedOut, now := now }

def pingInterval (keepAlive : UInt16) : Int := 1000000 * (keepAlive.toNat : Int)

/-- The events come in order of time; the client pings every `keep_alive`
seconds, late by `delay` at most, and within `delay` the broker has the request
and the client the answer. -/
def OnSchedule (keepAlive : UInt16) (delay : Int) (s : KeepAliveRun) :
    Int64 × KeepAliveEvent → Prop
  | (now, event) => s.now.toInt ≤ now.toInt ∧
      now.toInt ≤ s.lastPing.toInt + pingInterval keepAlive + delay ∧
      (s.requestDue = true ∨ s.answerDue = true → now.toInt ≤ s.lastPing.toInt + delay) ∧
      match event with
      | .ping => s.lastPing.toInt + pingInterval keepAlive ≤ now.toInt
      | .pingReq => s.requestDue = true
      | .pingResp => s.answerDue = true ∧ s.requestDue = false
      | _ => True

/-- The broker has opened its session, and then the client its own. -/
def KeepAliveRun.start (created accepted : Int64) : KeepAliveRun :=
  { clientTs := accepted, brokerTs := created, dropped := false, lastPing := accepted,
    requestDue := false, answerDue := false, now := accepted }

/-- Neither side drops the connection as long as every delay is less than a
sixth of the keep-alive time. -/
def NeverDropped (keepAlive : UInt16) : Prop :=
  ∀ (delay : Int) (created accepted : Int64) (events : List (Int64 × KeepAliveEvent)),
    0 ≤ delay → 6 * delay < pingInterval keepAlive →
    created.toInt ≤ accepted.toInt → accepted.toInt ≤ created.toInt + delay →
    Admissible (OnSchedule keepAlive delay) (keepAliveStep keepAlive)
      (.start created accepted) events →
    ∃ final, runs (keepAliveStep keepAlive) (.start created accepted) events = some final ∧
      final.dropped = false

/-- How old the two times may be. -/
structure KeepAliveRun.Fresh (s : KeepAliveRun) (interval delay : Int) : Prop where
  alive : s.dropped = false
  ping : s.lastPing.toInt ≤ s.now.toInt
  client : s.clientTs.toInt ≤ s.now.toInt
  broker : s.brokerTs.toInt ≤ s.now.toInt
  clientFresh : s.lastPing.toInt - (if s.answerDue then interval + delay else 0) ≤ s.clientTs.toInt
  brokerFresh :
    s.lastPing.toInt - delay - (if s.requestDue then interval + delay else 0) ≤ s.brokerTs.toInt

theorem keepAliveStep_fresh {keepAlive : UInt16} (hsmall : keepAlive.toNat ≤ 1073) {delay : Int}
    (hdelay : 0 ≤ delay) (hprompt : 6 * delay < pingInterval keepAlive) {s : KeepAliveRun}
    {input : Int64 × KeepAliveEvent} (h : s.Fresh (pingInterval keepAlive) delay)
    (hinput : OnSchedule keepAlive delay s input) :
    ∃ next, keepAliveStep keepAlive s input = some next ∧
      next.Fresh (pingInterval keepAlive) delay := by
  obtain ⟨now, event⟩ := input
  obtain ⟨hlater, hontime, hdue, hevent⟩ := hinput
  obtain ⟨halive, hping, hclient, hbroker, hclientFresh, hbrokerFresh⟩ := h
  have hinterval : pingInterval keepAlive = 1000000 * (keepAlive.toNat : Int) := rfl
  cases event with
  | ping =>
      change s.lastPing.toInt + pingInterval keepAlive ≤ now.toInt at hevent
      -- nothing of the last ping is under way any more
      have hrequest : s.requestDue = false := by
        by_contra htrue
        have hsoon := hdue (Or.inl (Bool.not_eq_false _ |>.mp htrue))
        omega
      have hanswer : s.answerDue = false := by
        by_contra htrue
        have hsoon := hdue (Or.inr (Bool.not_eq_false _ |>.mp htrue))
        omega
      simp only [hrequest, hanswer, Bool.false_eq_true, if_false] at hclientFresh hbrokerFresh
      have hfits : DifferenceFits now s.clientTs := by
        unfold DifferenceFits
        omega
      have hheard : ¬ServerSilent keepAlive now s.clientTs := by
        unfold ServerSilent
        omega
      refine ⟨{ s with lastPing := now, requestDue := true, answerDue := true, now := now }, ?_,
        halive, le_rfl, hclient.trans hlater, hbroker.trans hlater, ?_, ?_⟩
      · rw [keepAliveStep, ping_eq hsmall (hclient.trans hlater) hfits, decide_eq_false hheard]
        rfl
      · change now.toInt - (pingInterval keepAlive + delay) ≤ s.clientTs.toInt
        omega
      · change now.toInt - delay - (pingInterval keepAlive + delay) ≤ s.brokerTs.toInt
        omega
  | pingReq =>
      refine ⟨_, rfl, halive, hping.trans hlater, hclient.trans hlater, le_rfl, hclientFresh, ?_⟩
      change s.lastPing.toInt - delay - 0 ≤ now.toInt
      omega
  | pingResp =>
      refine ⟨_, rfl, halive, hping.trans hlater, le_rfl, hbroker.trans hlater, ?_, hbrokerFresh⟩
      change s.lastPing.toInt - 0 ≤ now.toInt
      omega
  | packetToBroker =>
      exact ⟨_, rfl, halive, hping.trans hlater, hclient.trans hlater, le_rfl, hclientFresh,
        hbrokerFresh.trans (hbroker.trans hlater)⟩
  | packetToClient =>
      exact ⟨_, rfl, halive, hping.trans hlater, le_rfl, hbroker.trans hlater,
        hclientFresh.trans (hclient.trans hlater), hbrokerFresh⟩
  | check =>
      have hrecent : now.toInt - s.brokerTs.toInt < 1500000 * (keepAlive.toNat : Int) := by
        by_cases hrequest : s.requestDue = true
        · have hsoon := hdue (Or.inl hrequest)
          rw [if_pos hrequest] at hbrokerFresh
          omega
        · rw [if_neg hrequest] at hbrokerFresh
          omega
      have hfits : KeepAliveConn.TimesFit ⟨.inSession, keepAlive, s.brokerTs⟩ now := by
        intro _ _
        change now.toInt - s.brokerTs.toInt < 2 ^ 63
        omega
      have hheard : ¬ClientSilent now ⟨.inSession, keepAlive, s.brokerTs⟩ :=
        fun hsilent => hrecent.not_ge hsilent.2.2
      have htimedOut : KeepAliveConn.timedOut ⟨.inSession, keepAlive, s.brokerTs⟩ now
          = some (decide (ClientSilent now ⟨.inSession, keepAlive, s.brokerTs⟩)) :=
        @KeepAliveConn.timedOut_eq ⟨.inSession, keepAlive, s.brokerTs⟩ now
          (hbroker.trans hlater) hfits
      refine ⟨{ s with dropped := s.dropped || false, now := now }, ?_, ?_, hping.trans hlater,
        hclient.trans hlater, hbroker.trans hlater, hclientFresh, hbrokerFresh⟩
      · rw [keepAliveStep, htimedOut, decide_eq_false hheard]
        rfl
      · change (s.dropped || false) = false
        rw [halive]
        rfl

theorem neverDropped_of_small {keepAlive : UInt16} (hsmall : keepAlive.toNat ≤ 1073) :
    NeverDropped keepAlive := by
  intro delay created accepted events hdelay hprompt hcreated haccepted hevents
  have hstart : (KeepAliveRun.start created accepted).Fresh (pingInterval keepAlive) delay :=
    { alive := rfl
      ping := le_rfl
      client := le_rfl
      broker := hcreated
      clientFresh := by
        change accepted.toInt - 0 ≤ accepted.toInt
        omega
      brokerFresh := by
        change accepted.toInt - delay - 0 ≤ created.toInt
        omega }
  obtain ⟨final, hrun, hfresh⟩ := runs_invariant
    (fun _ _ h hinput => keepAliveStep_fresh hsmall hdelay hprompt h hinput) hstart hevents
  exact ⟨final, hrun, hfresh.alive⟩

/-- The first ping of a client with a longer keep-alive time overflows. -/
theorem not_neverDropped_of_large {keepAlive : UInt16} (hlarge : 1073 < keepAlive.toNat) :
    ¬NeverDropped keepAlive := by
  intro hnever
  have hlt := keepAlive.toNat_lt
  have hzero : (0 : Int64).toInt = 0 := rfl
  have htime : (Int64.ofInt (pingInterval keepAlive)).toInt = pingInterval keepAlive := by
    apply Int64.toInt_ofInt_of_le <;> (unfold pingInterval; omega)
  have hstep : keepAliveStep keepAlive (.start 0 0)
      (Int64.ofInt (pingInterval keepAlive), .ping) = none := by
    rw [keepAliveStep, ping_of_large hlarge]
    rfl
  obtain ⟨final, hrun, -⟩ := hnever 0 0 0 [(Int64.ofInt (pingInterval keepAlive), .ping)] le_rfl
    (by unfold pingInterval; omega) le_rfl (by omega) (by
      refine ⟨⟨?_, ?_, ?_, ?_⟩, ?_⟩
      · change (0 : Int64).toInt ≤ _
        rw [htime, hzero]
        unfold pingInterval
        omega
      · change _ ≤ (0 : Int64).toInt + _ + 0
        rw [htime, hzero]
        omega
      · rintro (hdue | hdue) <;> cases hdue
      · change (0 : Int64).toInt + _ ≤ _
        rw [htime, hzero]
        omega
      · rw [hstep]
        trivial)
  rw [runs, hstep] at hrun
  cases hrun

/-- The client's check is right, and prompt answers keep the connection, for
keep-alive times up to 1073 seconds; the broker's check for every one. -/
theorem keepAlive_iff (keepAlive : UInt16) :
    (∀ now lastPktTs : Int64, lastPktTs.toInt ≤ now.toInt →
        (ping keepAlive now lastPktTs = some (decide (ServerSilent keepAlive now lastPktTs)) ↔
          keepAlive.toNat ≤ 1073 ∧ DifferenceFits now lastPktTs)) ∧
      (∀ (now : Int64) (conns : List KeepAliveConn),
        (∀ conn ∈ conns, conn.lastPktTs.toInt ≤ now.toInt) →
        (mqttKeepalive now conns
            = some (conns.filter fun conn => decide (ClientSilent now conn)) ↔
          ∀ conn ∈ conns, conn.TimesFit now)) ∧
      (NeverDropped keepAlive ↔ keepAlive.toNat ≤ 1073) := by
  refine ⟨fun now lastPktTs hle => ping_iff keepAlive hle,
    fun now conns hle => mqttKeepalive_iff hle, ?_, neverDropped_of_small⟩
  intro hnever
  by_contra hlarge
  exact not_neverDropped_of_large (not_le.mp hlarge) hnever

/-- A client of 1074 seconds that heard from its server just now. -/
theorem not_ping_1074 :
    ¬(ping 1074 2000000000 1999999999
      = some (decide (ServerSilent 1074 2000000000 1999999999))) := by
  rw [ping_of_large (by decide)]
  intro hnone
  cases hnone

end TinyMqtt
