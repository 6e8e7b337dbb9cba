import TinyMqtt.Lib.Run
import TinyMqtt.Rule.Engine

/-!
Rules added one after another. The report of a rule that is refused is freed
and stays where it is, so the engine has a state at the end exactly when no
rule is accepted after one that was refused.
-/

namespace TinyMqtt

open RuleParser (RuleFailure tmqRuleParse)

variable {A π J : Type} (plugins : PluginsInfo A)
  (getObjectItem : J → Bytes → Option CJsonItem)

def RefusedRule (rule : Bytes) : Prop :=
  ∃ failure, tmqRuleParse plugins rule = some (.error failure) ∧ failure.isReport = true

def AcceptedRule (rule : Bytes) : Prop := ∃ result, tmqRuleParse plugins rule = some (.ok result)

def listenerFor (type : EventType) (rule : Bytes) : Option (RuleListener A) :=
  match tmqRuleParse plugins rule with
  | some (.ok result) =>
      if type = result.source.eventType then some (makeEventListener result) else none
  | _ => none

/-- One more rule, with what the parser makes of it. -/
theorem addRule_cases {engine next : RuleEngine A π} {rule : Bytes}
    (h : tmqRuleEngineAddRule plugins engine rule = some next) :
    (RefusedRule plugins rule ∧ next = { engine with errorInfoFreed := true }) ∨
      ∃ result, tmqRuleParse plugins rule = some (.ok result) ∧ engine.errorInfoFreed = false ∧
        next = engine.addListener result := by
  rw [tmqRuleEngineAddRule] at h
  split at h
  · cases h
  · rename_i failure hparse
    split at h
    · rename_i hreport
      exact .inl ⟨⟨failure, hparse, hreport⟩, (Option.some.inj h).symm⟩
    · cases h
  · rename_i result hparse
    split at h
    · cases h
    · rename_i hfresh
      exact .inr ⟨result, hparse, Bool.eq_false_iff.mpr hfresh, (Option.some.inj h).symm⟩

theorem addRule_refused {engine : RuleEngine A π} {rule : Bytes} (h : RefusedRule plugins rule) :
    tmqRuleEngineAddRule plugins engine rule = some { engine with errorInfoFreed := true } := by
  obtain ⟨failure, hparse, hreport⟩ := h
  rw [tmqRuleEngineAddRule, hparse]
  exact if_pos hreport

theorem addRule_accepted {engine : RuleEngine A π} {rule : Bytes} {result : RuleParseResult A}
    (h : tmqRuleParse plugins rule = some (.ok result)) (hfresh : engine.errorInfoFreed = false) :
    tmqRuleEngineAddRule plugins engine rule = some (engine.addListener result) := by
  rw [tmqRuleEngineAddRule, h]
  exact if_neg (by simp [hfresh])

theorem addListener_errorInfoFreed (engine : RuleEngine A π) (result : RuleParseResult A) :
    (engine.addListener result).errorInfoFreed = engine.errorInfoFreed := by
  rw [RuleEngine.addListener]
  split <;> rfl

/-- A new listener goes before the others of its type. -/
theorem addListener_listeners (engine : RuleEngine A π) (result : RuleParseResult A)
    {type : EventType} (htype : type ≠ .message) :
    (engine.addListener result).listeners type
      = (if type = result.source.eventType then [makeEventListener result] else []) ++
          engine.listeners type := by
  rw [RuleEngine.addListener]
  split
  · rename_i hmessage
    rw [if_neg (by rw [hmessage]; exact htype)]
    rfl
  · by_cases hsame : type = result.source.eventType
    · simp [hsame]
    · simp [hsame]

/-- Rules after one that was refused must be refused too. -/
theorem runs_addRules_freed {engine : RuleEngine A π} (hfreed : engine.errorInfoFreed = true)
    (rules : List Bytes) :
    (∃ next, Run.runs (tmqRuleEngineAddRule plugins) engine rules = some next) ↔
      ∀ rule ∈ rules, RefusedRule plugins rule := by
  induction rules generalizing engine with
  | nil => exact iff_of_true ⟨engine, rfl⟩ (fun rule hrule => by cases hrule)
  | cons rule rules ih =>
      rw [List.forall_mem_cons]
      constructor
      · rintro ⟨final, hrun⟩
        obtain ⟨next, hnext, hrest⟩ := Option.bind_eq_some_iff.mp hrun
        rcases addRule_cases plugins hnext with ⟨hrefused, rfl⟩ | ⟨result, -, hfresh, -⟩
        · exact ⟨hrefused, (ih rfl).mp ⟨final, hrest⟩⟩
        · rw [hfreed] at hfresh
          cases hfresh
      · rintro ⟨hrefused, hothers⟩
        obtain ⟨final, hrest⟩ := (@ih { engine with errorInfoFreed := true } rfl).mpr hothers
        exact ⟨final, by rw [Run.runs, addRule_refused plugins hrefused]; exact hrest⟩

/-- Before the first refusal rules are added freely. -/
theorem runs_addRules_fresh {engine : RuleEngine A π} (hfresh : engine.errorInfoFreed = false)
    (rules : List Bytes) :
    (∃ next, Run.runs (tmqRuleEngineAddRule plugins) engine rules = some next) ↔
      ∃ accepted refused, rules = accepted ++ refused ∧ (∀ rule ∈ accepted, AcceptedRule plugins rule) ∧
        ∀ rule ∈ refused, RefusedRule plugins rule := by
  induction rules generalizing engine with
  | nil => exact iff_of_true ⟨engine, rfl⟩ ⟨[], [], rfl, by simp, by simp⟩
  | cons rule rules ih =>
      constructor
      · rintro ⟨final, hrun⟩
        obtain ⟨next, hnext, hrest⟩ := Option.bind_eq_some_iff.mp hrun
        rcases addRule_cases plugins hnext with ⟨hrefused, rfl⟩ | ⟨result, hparse, -, rfl⟩
        · have hothers := (runs_addRules_freed plugins rfl rules).mp ⟨final, hrest⟩
          exact ⟨[], rule :: rules, rfl, by simp, List.forall_mem_cons.mpr ⟨hrefused, hothers⟩⟩
        · obtain ⟨accepted, refused, rfl, haccepted, hrefused⟩ :=
            (ih ((addListener_errorInfoFreed engine result).trans hfresh)).mp ⟨final, hrest⟩
          exact ⟨rule :: accepted, refused, rfl,
            List.forall_mem_cons.mpr ⟨⟨result, hparse⟩, haccepted⟩, hrefused⟩
      · rintro ⟨accepted, refused, hsplit, haccepted, hrefused⟩
        cases accepted with
        | nil =>
            obtain rfl : rule :: rules = refused := hsplit
            obtain ⟨hfirst, hothers⟩ := List.forall_mem_cons.mp hrefused
            obtain ⟨final, hrest⟩ := (@runs_addRules_freed A π plugins
              { engine with errorInfoFreed := true } rfl rules).mpr hothers
            exact ⟨final, by rw [Run.runs, addRule_refused plugins hfirst]; exact hrest⟩
        | cons first accepted =>
            obtain ⟨rfl, rfl⟩ := List.cons.inj hsplit
            obtain ⟨⟨result, hparse⟩, hothers⟩ := List.forall_mem_cons.mp haccepted
            obtain ⟨final, hrest⟩ :=
              (@ih (engine.addListener result)
                ((addListener_errorInfoFreed engine result).trans hfresh)).mpr
                ⟨accepted, refused, rfl, hothers, hrefused⟩
            exact ⟨final, by rw [Run.runs, addRule_accepted plugins hparse hfresh]; exact hrest⟩

theorem listenerFor_refused {rule : Bytes} (h : RefusedRule plugins rule) (type : EventType) :
    listenerFor plugins type rule = none := by
  obtain ⟨failure, hparse, -⟩ := h
  rw [listenerFor, hparse]

/-- The listeners of a type, newest first, after rules were added. -/
theorem runs_addRules_listeners {engine final : RuleEngine A π} {rules : List Bytes}
    (hrun : Run.runs (tmqRuleEngineAddRule plugins) engine rules = some final) {type : EventType}
    (htype : type ≠ .message) :
    final.listeners type
      = rules.reverse.filterMap (listenerFor plugins type) ++ engine.listeners type := by
  induction rules generalizing engine with
  | nil =>
      obtain rfl := Option.some.inj hrun
      rfl
  | cons rule rules ih =>
      obtain ⟨next, hnext, hrest⟩ := Option.bind_eq_some_iff.mp hrun
      rw [ih hrest, List.reverse_cons, List.filterMap_append, List.append_assoc]
      congr 1
      rcases addRule_cases plugins hnext with ⟨hrefused, rfl⟩ | ⟨result, hparse, -, rfl⟩
      · rw [List.filterMap_cons, listenerFor_refused plugins hrefused]
        rfl
      · rw [addListener_listeners engine result htype, List.filterMap_cons, listenerFor, hparse]
        by_cases hsame : type = result.source.eventType <;> simp [hsame]

/-- Rules added to a new engine: there is a state at the end exactly when the
rules that are accepted come before those that are refused, and then an event
that is no message goes to the listeners of the accepted rules for its type,
the newest first. -/
theorem addRules_publish (rules : List Bytes) :
    ((∃ engine : RuleEngine A π,
        Run.runs (tmqRuleEngineAddRule plugins) tmqRuleEngineInit rules = some engine) ↔
      ∃ accepted refused, rules = accepted ++ refused ∧
        (∀ rule ∈ accepted, AcceptedRule plugins rule) ∧ ∀ rule ∈ refused, RefusedRule plugins rule) ∧
    ∀ engine : RuleEngine A π,
      Run.runs (tmqRuleEngineAddRule plugins) tmqRuleEngineInit rules = some engine →
      ∀ event : TmqEvent J, event.type ≠ .message →
        tmqRuleEnginePublishEvent getObjectItem engine event
          = publishTo getObjectItem (rules.reverse.filterMap (listenerFor plugins event.type))
              event := by
  refine ⟨runs_addRules_fresh plugins rfl rules, ?_⟩
  intro engine hrun event hevent
  rw [tmqRuleEnginePublishEvent, if_pos hevent, runs_addRules_listeners plugins hrun hevent]
  exact congrArg (publishTo getObjectItem · event) (List.append_nil _)

end TinyMqtt
