import TinyMqtt.Broker.Change
import TinyMqtt.Topic.Occupied

/-!
The topic tree of the broker. A step of the broker asks the tree for a sequence
of subscriptions, removals and publishes, and the publishes are those of the
request or the will that the step executes. What holds of every run of the tree
holds in the broker.
-/

namespace TinyMqtt

namespace Broker

variable {π J : Type} [TmqString π]

def willReq (session : SessionRecord π) (will : Will π) : PublishReq π :=
  { topic := will.topic, message := ⟨tmqStrNew will.message, will.qos⟩, retain := will.retain,
    isTunneledPub := false, publisherUsername := tmqStrNew session.username,
    publisherClientId := tmqStrNew session.clientId }

/-- The request that a step publishes in the topic tree. -/
def publishedBy (broker : Broker π) : Label π → Option (PublishReq π)
  | .publish req => some req
  | .execute _ =>
      match broker.requests with
      | .close .sessionForceClose (some s) :: _ => do
          let session ← broker.heap s
          let will ← session.will
          some (willReq session will)
      | _ => none
  | _ => none

variable {config : BrokerConfig π J} {broker next : Broker π}

theorem runs_removeAll {clientId : Bytes} {filters : List Bytes} {topics cleaned : Topics π}
    (hremoved : removeAll clientId filters topics = some cleaned) :
    Run.runs (TreeCall.step config.cJsonParse) topics
      (filters.map (.removeSubscription · clientId)) = some cleaned := by
  induction filters generalizing topics with
  | nil => exact hremoved
  | cons topicFilter filters ih =>
      rw [removeAll, List.foldlM_cons] at hremoved
      obtain ⟨middle, hfirst, hrest⟩ := Option.bind_eq_some_iff.mp hremoved
      rw [List.map_cons, Run.runs, TreeCall.step, hfirst]
      exact ih hrest

theorem runs_addSubscriptions (config : BrokerConfig π J) (session : SessionRecord π) (s : Nat)
    (filters : List TopicFilterQos) (topics : Topics π) :
    ∃ calls, Run.runs (TreeCall.step config.cJsonParse) topics calls
        = some (addSubscriptions config session s filters topics).1 ∧
      ∀ req, TreeCall.publish req ∉ calls := by
  induction filters generalizing topics with
  | nil => exact ⟨[], rfl, by simp⟩
  | cons tf filters ih =>
      rw [addSubscriptions]
      split
      · exact ih topics
      · obtain ⟨calls, hcalls, hquiet⟩ := ih
          (tmqTopicsAddSubscription topics tf.topicFilter session.clientId ⟨s, tf.qos⟩).2
        exact ⟨.addSubscription tf.topicFilter session.clientId ⟨s, tf.qos⟩ :: calls, hcalls,
          by simpa using hquiet⟩

/-- The tree ran a sequence of calls in which it published nothing but the
request. -/
def TreeRuns (config : BrokerConfig π J) (topics next : Topics π) (published : Option (PublishReq π)) :
    Prop :=
  ∃ calls, Run.runs (TreeCall.step config.cJsonParse) topics calls = some next ∧
    ∀ req, TreeCall.publish req ∈ calls ↔ published = some req

theorem TreeRuns.refl (topics : Topics π) : TreeRuns config topics topics none :=
  ⟨[], rfl, by simp⟩

theorem TreeRuns.publish (topics : Topics π) (req : PublishReq π) :
    TreeRuns config topics (tmqTopicsPublish config.cJsonParse topics req).1 (some req) :=
  ⟨[.publish req], rfl, by simp [eq_comm]⟩

/-- More calls without a publish. -/
theorem TreeRuns.append {topics middle next : Topics π} {published : Option (PublishReq π)}
    (h : TreeRuns config topics middle published) {calls : List (TreeCall π)}
    (hrun : Run.runs (TreeCall.step config.cJsonParse) middle calls = some next)
    (hquiet : ∀ req, TreeCall.publish req ∉ calls) : TreeRuns config topics next published := by
  obtain ⟨earlier, hearlier, hpublished⟩ := h
  refine ⟨earlier ++ calls, ?_, ?_⟩
  · rw [Run.runs_append, hearlier]
    exact hrun
  · intro req
    rw [List.mem_append, hpublished]
    simp [hquiet req]

theorem TreeRuns.removeAll {topics middle next : Topics π} {published : Option (PublishReq π)}
    (h : TreeRuns config topics middle published) {clientId : Bytes} {filters : List Bytes}
    (hremoved : removeAll clientId filters middle = some next) :
    TreeRuns config topics next published :=
  h.append (runs_removeAll hremoved) (by simp)

theorem publishWillOf_topicsTree {op : SessionReqOp} {session : SessionRecord π}
    (hwill : broker.publishWillOf config op session = some next) :
    TreeRuns config broker.topicsTree next.topicsTree
      (if op = .sessionForceClose then session.will.map (willReq session) else none) := by
  cases op with
  | sessionDisconnect =>
      obtain rfl := Option.some.inj hwill
      exact .refl _
  | sessionForceClose =>
      unfold publishWillOf at hwill
      rw [if_pos rfl]
      cases hsession : session.will with
      | none =>
          rw [hsession] at hwill
          obtain rfl := Option.some.inj hwill
          exact .refl _
      | some will =>
          rw [hsession] at hwill
          obtain ⟨tasks, shares, rfl, -⟩ := topicsPublish_cases hwill
          exact .publish broker.topicsTree (willReq session will)

theorem closeSession_topicsTree {run : Execution} {op : SessionReqOp} {s : Nat}
    {requests : List (Request π)} (hrequests : broker.requests = .close op (some s) :: requests)
    (hclose : (broker.dequeue requests).closeSession config run op s = some next) :
    TreeRuns config broker.topicsTree next.topicsTree (broker.publishedBy (.execute run)) := by
  simp only [closeSession, Option.bind_eq_bind, Option.bind_eq_some_iff] at hclose
  obtain ⟨session, hsession, middle, hwill, hclose⟩ := hclose
  have htree := publishWillOf_topicsTree hwill
  have hpublished : broker.publishedBy (.execute run)
      = if op = .sessionForceClose then session.will.map (willReq session) else none := by
    change broker.heap s = some session at hsession
    unfold publishedBy
    rw [hrequests]
    cases op with
    | sessionDisconnect => rfl
    | sessionForceClose =>
        rw [if_pos rfl]
        dsimp only
        rw [hsession]
        cases hstored : session.will <;> simp [hstored]
  rw [hpublished]
  obtain ⟨found, -, ⟨-, -, rfl⟩ | ⟨topics, -, hremoved, rfl, -⟩⟩ := tmqSessionClose_cases hclose
  · exact htree
  · exact htree.removeAll hremoved

/-- Only publishes and executed requests change the tree. -/
theorem topicsTree_of_change {label : Label π} (hchange : Change config broker label next)
    (hexecute : ∀ run, label ≠ .execute run) (hpublish : ∀ req, label ≠ .publish req) :
    next.topicsTree = broker.topicsTree := by
  cases hchange <;> first
    | rfl
    | exact absurd rfl (hexecute _)
    | exact absurd rfl (hpublish _)

theorem startSession_topicsTree {run : Execution} {k : Nat} {req : ConnectReq π}
    (hstart : broker.startSession run k req = some next) :
    TreeRuns config broker.topicsTree next.topicsTree none := by
  obtain ⟨conn, -, hstarted⟩ := startSession_eq_some hstart
  cases hstarted with
  | reject hregistered hsession hopened => exact .refl _
  | startNew habsent hfree => exact .refl _
  | restart hregistered hsession hclosed hclean horder hremoved hfree =>
      exact (TreeRuns.refl _).removeAll hremoved
  | resume hregistered hsession hclosed hkeep => exact .refl _

theorem execute_topicsTree {run : Execution} (hexecute : broker.execute config run = some next) :
    TreeRuns config broker.topicsTree next.topicsTree (broker.publishedBy (.execute run)) := by
  unfold execute at hexecute
  split at hexecute
  · cases hexecute
  · rename_i request requests hrequests
    have hquiet : (∀ op s, request ≠ .close op s) → broker.publishedBy (.execute run) = none := by
      intro hother
      unfold publishedBy
      rw [hrequests]
      cases request with
      | close op s => exact absurd rfl (hother op s)
      | _ => rfl
    cases request with
    | connect k req =>
        rw [hquiet (by simp)]
        exact @startSession_topicsTree π J _ config (broker.dequeue requests) next run k req hexecute
    | close op session =>
        simp only [handleRequest, Option.bind_eq_bind, Option.bind_eq_some_iff] at hexecute
        obtain ⟨s, rfl, hclose⟩ := hexecute
        exact closeSession_topicsTree hrequests hclose
    | subscribe clientId pkt =>
        rw [hquiet (by simp)]
        rcases withOpenSession_cases hexecute with
          ⟨rfl, -⟩ | ⟨s, session, -, -, -, hhandle⟩
        · exact .refl _
        · simp only [subscribeTopics, Option.bind_eq_bind, Option.bind_eq_some_iff] at hhandle
          obtain ⟨conn, -, hhandle⟩ := hhandle
          obtain rfl := Option.some.inj hhandle
          obtain ⟨calls, hcalls, hcallsQuiet⟩ :=
            runs_addSubscriptions config session s pkt.topics broker.topicsTree
          exact (TreeRuns.refl _).append hcalls hcallsQuiet
    | unsubscribe clientId pkt =>
        rw [hquiet (by simp)]
        rcases withOpenSession_cases hexecute with
          ⟨rfl, -⟩ | ⟨s, session, -, -, -, hhandle⟩
        · exact .refl _
        · simp only [unsubscribeTopics, Option.bind_eq_bind, Option.bind_eq_some_iff] at hhandle
          obtain ⟨topics, hremoved, hhandle⟩ := hhandle
          obtain rfl := Option.some.inj hhandle
          exact (TreeRuns.refl _).removeAll hremoved

/-- A step of the broker is a run of the tree. -/
theorem step_topicsTree {label : Label π} (hstep : step config broker label = some next) :
    TreeRuns config broker.topicsTree next.topicsTree (broker.publishedBy label) := by
  cases label with
  | execute run => exact execute_topicsTree hstep
  | publish req =>
      obtain ⟨tasks, shares, rfl, -⟩ := topicsPublish_cases hstep
      exact .publish broker.topicsTree req
  | _ =>
      rw [topicsTree_of_change (step_change hstep) nofun nofun]
      exact .refl _

end Broker

end TinyMqtt
