import TinyMqtt.Broker.TopicTree
import TinyMqtt.Broker.Wills

/-!
The publishing of wills. The steps of a run that publish a will of a
connection are told by the requests they execute; in each of them the topic,
the message, the QoS and the retain flag of the will go through
`tmq_topics_publish`, as those of a PUBLISH do. These steps give the wills in
the life of the connection, one after the other.
-/

namespace TinyMqtt

variable {π J : Type}

/-- The will of the connection `k` that the event tells of. -/
def BrokerEvent.willOn (k : Nat) : BrokerEvent π → Option (Will π)
  | .willPublished k' will => if k' = k then some will else none
  | _ => none

/-- A step that executes a close request with a will. -/
structure WillStep (π : Type) where
  before : Broker π
  session : SessionRecord π
  will : Will π
  after : Broker π

namespace Broker

variable [TmqString π]

/-- The session on the connection `k`, and its will, that a step publishes. -/
def willSession (broker : Broker π) (k : Nat) : Label π → Option (SessionRecord π × Will π)
  | .execute _ =>
      match broker.requests with
      | .close .sessionForceClose (some s) :: _ => do
          let session ← broker.heap s
          let will ← session.will
          if session.conn = k then some (session, will) else none
      | _ => none
  | _ => none

/-- The steps of a run that publish a will of the connection `k`. -/
def willSteps (config : BrokerConfig π J) (k : Nat) : Broker π → List (Label π) → List (WillStep π)
  | _, [] => []
  | broker, label :: labels =>
      match step config broker label with
      | none => []
      | some next =>
          ((broker.willSession k label).map fun found =>
            ⟨broker, found.1, found.2, next⟩).toList ++ willSteps config k next labels

/-- The will went through `tmq_topics_publish`, and nothing else was queued or
published in the step. -/
def Publishes (config : BrokerConfig π J) (willStep : WillStep π) : Prop :=
  ∃ requests log published,
    topicsPublish config { willStep.before with requests := requests, log := log }
        { topic := willStep.will.topic,
          message := ⟨tmqStrNew willStep.will.message, willStep.will.qos⟩,
          retain := willStep.will.retain, isTunneledPub := false,
          publisherUsername := tmqStrNew willStep.session.username,
          publisherClientId := tmqStrNew willStep.session.clientId } = some published ∧
      willStep.after.broadcastTasks = published.broadcastTasks ∧
      TreeRuns config published.topicsTree willStep.after.topicsTree none

variable {config : BrokerConfig π J} {broker next : Broker π} {k : Nat}

/-! ### One step -/

theorem lifecycle_wills (broker : Broker π) (k : Nat) :
    (broker.lifecycle k).wills = broker.log.filterMap (BrokerEvent.willOn k) := by
  have hfold : ∀ (log : List (BrokerEvent π)) (ledger : Ledger π),
      (log.foldl (Ledger.note k) ledger).wills
        = ledger.wills ++ log.filterMap (BrokerEvent.willOn k) := by
    intro log
    induction log with
    | nil => intro ledger; simp
    | cons event log ih =>
        intro ledger
        have hnote : (ledger.note k event).wills
            = ledger.wills ++ (event.willOn k).toList := by
          cases event with
          | willPublished k' will => by_cases hk : k' = k <;> simp [Ledger.note, BrokerEvent.willOn, hk]
          | closeRequest k' op session =>
              cases session <;> by_cases hk : k' = k <;>
                simp [Ledger.note, BrokerEvent.willOn, hk]
          | connect k' | disconnect k' | tcpClosed k' | accepted k' | sessionClosed k' =>
              by_cases hk : k' = k <;> simp [Ledger.note, BrokerEvent.willOn, hk]
          | _ => simp [Ledger.note, BrokerEvent.willOn]
        rw [List.foldl_cons, ih, hnote, List.append_assoc]
        cases hwill : event.willOn k <;> simp [hwill]
  exact hfold broker.log Lifecycle.init.toLedger

def Quiet (broker next : Broker π) (k : Nat) : Prop :=
  next.log.filterMap (BrokerEvent.willOn k) = broker.log.filterMap (BrokerEvent.willOn k)

/-- Only executed requests publish wills. -/
theorem quiet_of_change {label : Label π} (hchange : Change config broker label next)
    (hexecute : ∀ run, label ≠ .execute run) : Quiet broker next k := by
  cases hchange with
  | reject | startNew | restart | resume | closeKeep | closeClean | dropTopics | addTopics
  | removeTopics => exact absurd rfl (hexecute _)
  | publish | broadcast =>
      simp [Quiet, queueTasks, List.filterMap_map, Function.comp_def, BrokerEvent.willOn]
  | _ => simp [Quiet, setConn, setSession, record, post, postClose, makeConnectRespond,
      BrokerEvent.willOn]

theorem quiet_startSession {run : Execution} {k' : Nat} {req : ConnectReq π}
    (hstart : broker.startSession run k' req = some next) : Quiet broker next k := by
  obtain ⟨conn, -, hstarted⟩ := startSession_eq_some hstart
  cases hstarted <;>
    simp [Quiet, makeConnectRespond, putNewSession, cleanSession, accept, tmqSessionNew,
      tmqSessionResume, setSession, record, BrokerEvent.willOn]

/-- A session that is closed publishes its will, and only it. -/
theorem closeSession_publishes {run : Execution} {op : SessionReqOp} {s : Nat}
    {requests : List (Request π)} (hrequests : broker.requests = .close op (some s) :: requests)
    (hclose : (broker.dequeue requests).closeSession config run op s = some next) :
    next.log.filterMap (BrokerEvent.willOn k) = broker.log.filterMap (BrokerEvent.willOn k)
        ++ ((broker.willSession k (.execute run)).map Prod.snd).toList ∧
      ∀ session will, broker.willSession k (.execute run) = some (session, will) →
        Publishes config ⟨broker, session, will, next⟩ := by
  simp only [closeSession, Option.bind_eq_bind, Option.bind_eq_some_iff] at hclose
  obtain ⟨session, hsession, middle, hwill, hclose⟩ := hclose
  change broker.heap s = some session at hsession
  -- the rest of the request leaves the tasks alone and removes subscriptions at most
  have hrest : next.log.filterMap (BrokerEvent.willOn k)
        = middle.log.filterMap (BrokerEvent.willOn k) ∧
      next.broadcastTasks = middle.broadcastTasks ∧
      TreeRuns config middle.topicsTree next.topicsTree none := by
    obtain ⟨found, -, ⟨-, -, rfl⟩ | ⟨topics, -, hremoved, rfl, -⟩⟩ := tmqSessionClose_cases hclose
    · exact ⟨by simp [keepSession, setSession, record, BrokerEvent.willOn], rfl, .refl _⟩
    · exact ⟨by simp [cleanSession, setSession, record, BrokerEvent.willOn], rfl,
        (TreeRuns.refl _).removeAll hremoved⟩
  obtain ⟨hlog, htasks, htree⟩ := hrest
  have hfound : broker.willSession k (.execute run)
      = if session.conn = k then (willOnClose op session.will).map (session, ·) else none := by
    unfold willSession
    simp only [hrequests]
    cases op with
    | sessionDisconnect => simp [willOnClose]
    | sessionForceClose => cases hstored : session.will <;> simp [willOnClose, hsession, hstored]
  rw [hlog, hfound]
  cases hstored : willOnClose op session.will with
  | none =>
      have hsame : middle = broker.dequeue requests := by
        unfold publishWillOf at hwill
        split at hwill
        · rename_i will hsome
          rw [hsome] at hstored
          cases hstored
        · exact (Option.some.inj hwill).symm
      rw [hsame]
      exact ⟨by simp [dequeue], by simp⟩
  | some will =>
      obtain ⟨rfl, hsome⟩ : op = .sessionForceClose ∧ session.will = some will := by
        cases op with
        | sessionDisconnect => cases hstored
        | sessionForceClose => exact ⟨rfl, hstored⟩
      simp only [publishWillOf, hsome] at hwill
      obtain ⟨tasks, shares, hqueued, -⟩ := topicsPublish_cases hwill
      refine ⟨?_, ?_⟩
      · rw [hqueued]
        by_cases hk : session.conn = k <;>
          simp [queueTasks, record, dequeue, List.filterMap_map, Function.comp_def,
            BrokerEvent.willOn, hk]
      · intro session' will' hsame
        by_cases hk : session.conn = k
        · rw [if_pos hk] at hsame
          obtain ⟨rfl, rfl⟩ := Prod.mk.inj (Option.some.inj hsame)
          exact ⟨requests, _, middle, hwill, htasks, htree⟩
        · rw [if_neg hk] at hsame
          cases hsame

/-- Requests that close no session publish no will. -/
theorem quiet_handleRequest {run : Execution} {request : Request π}
    (hopen : ∀ op s, request ≠ .close op s)
    (hhandle : broker.handleRequest config run request = some next) : Quiet broker next k := by
  cases request with
  | connect k' req => exact quiet_startSession hhandle
  | close op s => exact absurd rfl (hopen op s)
  | subscribe clientId pkt =>
      rcases withOpenSession_cases hhandle with ⟨rfl, -⟩ | ⟨s, session, -, -, -, hhandle⟩
      · rfl
      · simp only [subscribeTopics, Option.bind_eq_bind, Option.bind_eq_some_iff] at hhandle
        obtain ⟨conn, -, hhandle⟩ := hhandle
        obtain rfl := Option.some.inj hhandle
        simp [Quiet, record, BrokerEvent.willOn]
  | unsubscribe clientId pkt =>
      rcases withOpenSession_cases hhandle with ⟨rfl, -⟩ | ⟨s, session, -, -, -, hhandle⟩
      · rfl
      · simp only [unsubscribeTopics, Option.bind_eq_bind, Option.bind_eq_some_iff] at hhandle
        obtain ⟨topics, -, hhandle⟩ := hhandle
        obtain rfl := Option.some.inj hhandle
        simp [Quiet, record, BrokerEvent.willOn]

omit [TmqString π] in
theorem willSession_of_open {run : Execution} {request : Request π} {requests : List (Request π)}
    (hrequests : broker.requests = request :: requests) (hopen : ∀ op s, request ≠ .close op s) :
    broker.willSession k (.execute run) = none := by
  unfold willSession
  simp only [hrequests]
  cases request with
  | close op s => exact absurd rfl (hopen op s)
  | _ => rfl

theorem Quiet.publishes {label : Label π} (hquiet : Quiet broker next k)
    (hnone : broker.willSession k label = none) :
    next.log.filterMap (BrokerEvent.willOn k) = broker.log.filterMap (BrokerEvent.willOn k)
        ++ ((broker.willSession k label).map Prod.snd).toList ∧
      ∀ session will, broker.willSession k label = some (session, will) →
        Publishes config ⟨broker, session, will, next⟩ := by
  rw [hnone]
  refine ⟨hquiet.trans (List.append_nil _).symm, ?_⟩
  rintro session will ⟨⟩

/-- What a step adds to the wills of the connection went through
`tmq_topics_publish`. -/
theorem step_publishes {label : Label π} (hstep : step config broker label = some next) :
    next.log.filterMap (BrokerEvent.willOn k) = broker.log.filterMap (BrokerEvent.willOn k)
        ++ ((broker.willSession k label).map Prod.snd).toList ∧
      ∀ session will, broker.willSession k label = some (session, will) →
        Publishes config ⟨broker, session, will, next⟩ := by
  cases label with
  | execute run =>
      change broker.execute config run = some next at hstep
      unfold execute at hstep
      split at hstep
      · cases hstep
      · rename_i request requests hrequests
        by_cases hopen : ∀ op s, request ≠ .close op s
        · have hquiet : Quiet (broker.dequeue requests) next k := quiet_handleRequest hopen hstep
          exact Quiet.publishes hquiet (willSession_of_open hrequests hopen)
        · push Not at hopen
          obtain ⟨op, session, rfl⟩ := hopen
          simp only [handleRequest, Option.bind_eq_bind, Option.bind_eq_some_iff] at hstep
          obtain ⟨s, rfl, hclose⟩ := hstep
          exact closeSession_publishes hrequests hclose
  | _ => exact Quiet.publishes (quiet_of_change (step_change hstep) (by rintro run ⟨⟩)) rfl

/-! ### Whole runs -/

/-- The wills of a run are those of the steps that published them. -/
theorem runs_willSteps {labels : List (Label π)} {final : Broker π}
    (hrun : Run.runs (step config) broker labels = some final) :
    final.log.filterMap (BrokerEvent.willOn k) = broker.log.filterMap (BrokerEvent.willOn k)
        ++ (willSteps config k broker labels).map WillStep.will ∧
      ∀ willStep ∈ willSteps config k broker labels, Publishes config willStep := by
  induction labels generalizing broker with
  | nil =>
      obtain rfl := Option.some.inj hrun
      exact ⟨by simp [willSteps], by simp [willSteps]⟩
  | cons label labels ih =>
      obtain ⟨next, hstep, hrest⟩ := Option.bind_eq_some_iff.mp hrun
      obtain ⟨hlog, hpublishes⟩ := @step_publishes _ _ _ config broker next k label hstep
      obtain ⟨hlater, hothers⟩ := ih hrest
      rw [hlater, hlog, willSteps, hstep]
      refine ⟨?_, ?_⟩
      · cases broker.willSession k label <;> simp
      · intro willStep hmem
        rcases List.mem_append.mp hmem with hfirst | hmem
        · obtain ⟨⟨session, will⟩, hfound, rfl⟩ :=
            Option.map_eq_some_iff.mp (Option.mem_toList.mp hfirst)
          exact hpublishes session will hfound
        · exact hothers willStep hmem

/-- A connection that sent one CONNECT, with a will, and had it accepted: in
every run one request closes its session, and the will is published if the
connection was lost before a DISCONNECT, and only then. What is published went
through `tmq_topics_publish`. -/
theorem closesOnce_of_connects (config : BrokerConfig π J) (labels : List (Label π))
    {broker : Broker π} (hrun : Run.runs (step config) init labels = some broker) (k : Nat)
    {will : Will π} (hconnects : (broker.lifecycle k).connects = [some will])
    (haccepts : (broker.lifecycle k).accepts ≠ []) :
    ∃ s, (broker.lifecycle k).accepts = [(s, some will)] ∧ (broker.lifecycle k).nullCloses = [] ∧
      (broker.lifecycle k).ClosesOnce s will ∧
      (willSteps config k init labels).map WillStep.will = (broker.lifecycle k).wills ∧
      ∀ willStep ∈ willSteps config k init labels, Publishes config willStep := by
  obtain ⟨s, haccepted, hnull, hcloses⟩ :=
    Lifecycle.closesOnce_of_steps (lifecycle_runs hrun k) hconnects haccepts
  obtain ⟨hwills, hpublishes⟩ := @runs_willSteps _ _ _ config init k labels broker hrun
  refine ⟨s, haccepted, hnull, hcloses, ?_, hpublishes⟩
  rw [lifecycle_wills]
  exact hwills.symm

def connectWithWill : ConnectReq Bytes :=
  ⟨⟨6, 60, some [65], some [116], some [119], none, none⟩, [119]⟩

def connectThenLost : List (Label Bytes) :=
  [.accept 0 [], .connect 0 connectWithWill false, .execute (sampleExecution 7),
    .connectComplete 0, .close 0, .execute (sampleExecution 0)]

/-- The will is published once, in the step that closes the session. -/
theorem closesOnce_connectThenLost :
    ∃ broker, Run.runs (step sampleConfig) init connectThenLost = some broker ∧
      (broker.lifecycle 0).closes = [(.sessionForceClose, 7)] ∧
      ∃ willStep, willSteps sampleConfig 0 init connectThenLost = [willStep] ∧
        willStep.will = ⟨[116], [119], 0, false⟩ ∧ Publishes sampleConfig willStep := by
  refine ⟨_, rfl, ?_⟩
  obtain ⟨s, haccepts, -, hcloses, hwills, hpublishes⟩ :=
    @closesOnce_of_connects _ _ _ sampleConfig connectThenLost _ rfl 0 ⟨[116], [119], 0, false⟩ rfl
      (List.cons_ne_nil _ _)
  obtain ⟨rfl, -⟩ := Prod.mk.inj (List.cons.inj haccepts).1
  obtain ⟨honce, hpublished⟩ := hcloses.2.2 ⟨rfl, rfl⟩
  rw [hpublished] at hwills
  obtain ⟨willStep, hone, hwill⟩ := List.map_eq_singleton_iff.mp hwills
  exact ⟨honce, willStep, hone, hwill, hpublishes willStep (by simp [hone])⟩

end Broker

end TinyMqtt
