import TinyMqtt.Broker.TopicTree
import TinyMqtt.Server.Authorization

/-!
Retained messages under wildcards. The topic tree passes no retained message on
to the nodes `+` and `#`, and does not look for one there. But a topic is not
checked for wildcards before it is published, and a level `+` of a topic is
taken for a level of its own.
-/

namespace TinyMqtt

variable {π J : Type} [TmqString π]

namespace Server

def publishedBy (server : Server π) (label : Label π) : Option (PublishReq π) :=
  (server.brokerLabel label).bind server.broker.publishedBy

/-- No node whose path has a wildcard holds a retained message. -/
def PlainRetained (server : Server π) : Prop :=
  ∀ path, ¬ WildcardFree path → (dataAt server.broker.topicsTree.root path).retainMessage = none

/-- A request or a will that is published to be retained has a topic without
wildcards. -/
def PublishesPlain (server : Server π) (label : Label π) : Prop :=
  ∀ req, server.publishedBy label = some req → req.retain = true →
    WildcardFree (tmqTopicSplit req.topic)

variable (config : BrokerConfig π J)

theorem plainRetained_step {server next : Server π} {label : Label π}
    (hstep : server.step config label = some next) :
    PlainRetained next ↔ PlainRetained server ∧ PublishesPlain server label := by
  obtain ⟨label', hlabel, hbroker⟩ := step_brokerLabel hstep
  obtain ⟨calls, hcalls, hpublished⟩ := Broker.step_topicsTree hbroker
  have hretained := retained_runs config.cJsonParse hcalls
  have hrequest : ∀ req, server.publishedBy label = some req ↔ .publish req ∈ calls := by
    intro req
    rw [publishedBy, hlabel, Option.bind_some, hpublished]
  constructor
  · intro hplain
    constructor
    · intro path hwildcard
      by_contra hsome
      exact (hretained path).mpr (.inl hsome) (hplain path hwildcard)
    · intro req hreq hretain
      by_contra hwildcard
      exact (hretained _).mpr (.inr ⟨req, (hrequest req).mp hreq, hretain, rfl⟩)
        (hplain _ hwildcard)
  · rintro ⟨hplain, hallowed⟩ path hwildcard
    by_contra hsome
    rcases (hretained path).mp hsome with hold | ⟨req, hreq, hretain, rfl⟩
    · exact hold (hplain path hwildcard)
    · exact hwildcard (hallowed req ((hrequest req).mpr hreq) hretain)

/-- The nodes with a wildcard stay without a retained message in just those runs
in which no message with a wildcard in its topic is published to be retained. -/
theorem plainRetained_iff (labels : List (Label π)) (server : Server π)
    (hrun : Run.runs (step config) init labels = some server) :
    PlainRetained server ↔ Run.Admissible PublishesPlain (step config) init labels := by
  have hinit : PlainRetained (init : Server π) := by
    intro path hwildcard
    exact congrArg TopicData.retainMessage (dataAt_init path)
  rw [Run.runs_keeps_iff (fun _ _ _ hstep => plainRetained_step config hstep) hrun]
  exact and_iff_right hinit

def retainTopic (topic : Bytes) : List (Label Bytes) :=
  [.broker (.accept 0 []) 0, .broker (.connect 0 (connectFrom [65] true) false) 0,
    .broker (.execute (sampleExecution 7)) 0, .broker (.connectComplete 0) 0,
    .packet 0 (.publish ⟨1, topic, 0, [1]⟩) 0, .publish]

theorem plainRetained_iff_plain : ∃ server,
    Run.runs (step sampleConfig) init (retainTopic [97]) = some server ∧
      (PlainRetained server ↔
        Run.Admissible PublishesPlain (step sampleConfig) init (retainTopic [97])) :=
  ⟨_, rfl, plainRetained_iff sampleConfig (retainTopic [97]) _ rfl⟩

/-- A message is published to the topic `+` to be retained. -/
theorem not_plainRetained_wildcard : ∃ server,
    Run.runs (step sampleConfig) init (retainTopic [43]) = some server ∧
      ¬ PlainRetained server := by
  refine ⟨_, rfl, ?_⟩
  intro hplain
  have hnone := hplain [[43]] (by decide)
  cases hnone

end Server

end TinyMqtt
