import TinyMqtt.Rule.Engine
import TinyMqtt.Rule.Tokens

/-!
Rules that are accepted, whatever their text. Every link of their expressions is
set and every field that they read is there in the events that they are run on,
so that a listener gets to its adaptor's call or to its end on all of these,
except where its filter is a single operand without a truth value.
-/

namespace TinyMqtt

namespace RuleParser

/-! ### The flag for the payload -/

section Need

variable {source : EventSource}

def readsPayloadAt (ptr : Bytes) : Bool :=
  !isOperator ptr && payloadPrefix.isPrefixOf (ptr.takeWhile isOperandByte)

theorem onOperator_need {expr ptr : Bytes} {st st' : ParseState}
    (h : onOperator expr ptr st = .ok st') : st'.needJsonPayload = st.needJsonPayload := by
  cases hlookup : operators.lookup (getOperator ptr) with
  | none =>
      rw [onOperator, hlookup] at h
      cases h
  | some operator =>
      by_cases hop : operator.op = .lp
      · rw [onOperator, hlookup] at h
        simp only [hop, ne_eq, not_true_eq_false, if_false] at h
        obtain rfl := Except.ok.inj h
        rfl
      · rw [onOperator_of_lookup expr hlookup hop st rfl] at h
        cases hpop : popOperators operator.priority st.operators st.operands with
        | error failure =>
            rw [hpop] at h
            cases h
        | ok popped =>
            rw [hpop] at h
            obtain rfl := Except.ok.inj h
            rfl

theorem onStop_need {expr ptr : Bytes} {st st' : ParseState}
    (h : onStop source expr st ptr = .ok st') :
    st'.needJsonPayload = (st.needJsonPayload || readsPayloadAt ptr) := by
  rw [onStop] at h
  rw [readsPayloadAt]
  cases hoperator : isOperator ptr with
  | true =>
      rw [hoperator, if_pos rfl] at h
      rw [onOperator_need h]
      simp
  | false =>
      rw [hoperator, if_neg Bool.false_ne_true, onOperand] at h
      split at h
      · cases h
      · obtain rfl := Except.ok.inj h
        simp

/-- The flag after some stops is set when one of them reads a payload. -/
theorem foldlM_onStop_need {expr : Bytes} {ptrs : List Bytes} {st st' : ParseState}
    (h : ptrs.foldlM (onStop source expr) st = .ok st') :
    st'.needJsonPayload = (st.needJsonPayload || ptrs.any readsPayloadAt) := by
  induction ptrs generalizing st with
  | nil =>
      obtain rfl := Except.ok.inj h
      simp
  | cons ptr ptrs ih =>
      rw [List.foldlM_cons] at h
      cases hstop : onStop source expr st ptr with
      | error failure =>
          rw [hstop] at h
          cases h
      | ok next =>
          rw [hstop] at h
          rw [ih h, onStop_need hstop, List.any_cons, Bool.or_assoc]

/-- The flag of an accepted filter. -/
theorem needJsonPayload_of_parse {need : Bool} {text : Bytes} {parsed : ParsedFilter}
    (h : parseFilterExpression source need text = some (.ok parsed)) :
    parsed.needJsonPayload = (need || (stops (cstr text)).any readsPayloadAt) := by
  rw [parseFilterExpression_eq] at h
  have h := Option.some.inj h
  cases hfold : (stops (cstr text)).foldlM (onStop source (cstr text)) ⟨[], [], need⟩ with
  | error failure =>
      rw [hfold] at h
      cases h
  | ok st =>
      rw [hfold] at h
      cases hend : onOperator (cstr text) [] st with
      | error failure =>
          change (onOperator (cstr text) [] st).bind _ = _ at h
          rw [hend] at h
          cases h
      | ok last =>
          change (onOperator (cstr text) [] st).bind _ = _ at h
          rw [hend] at h
          change parseResult (cstr text) last = .ok parsed at h
          rw [parseResult] at h
          split at h
          · obtain rfl := Except.ok.inj h
            change last.needJsonPayload = _
            rw [onOperator_need hend, foldlM_onStop_need hfold]
          · cases h

end Need

/-! ### Properties of all operands -/

section Forall

variable {source : EventSource} {P : Bool → FilterExpr → Prop}

/-- A property of expressions that the parser keeps: operands have it, and
linking keeps it. It may rest on the flag for the payload. -/
structure Kept (source : EventSource) (P : Bool → FilterExpr → Prop) : Prop where
  mono : ∀ e need more, P need e → P (need || more) e
  operand : ∀ value e need, operandExpr source value = some e →
    P (need || payloadPrefix.isPrefixOf value) e
  link : ∀ op priority l r need, P need l → P need r →
    P need ((tmqBinaryExprNew op priority).link l r)

theorem Kept.popOperators (h : Kept source P) {need : Bool} {priority : Nat}
    {ops ops' : List OperatorInfo} {es es' : List FilterExpr}
    (hpop : popOperators priority ops es = .ok (ops', es')) (hes : ∀ e ∈ es, P need e) :
    ∀ e ∈ es', P need e := by
  induction ops generalizing es with
  | nil =>
      obtain ⟨rfl, rfl⟩ := Prod.mk.inj (Except.ok.inj hpop)
      exact hes
  | cons top ops ih =>
      unfold RuleParser.popOperators at hpop
      split at hpop
      · split at hpop
        · obtain ⟨rfl, rfl⟩ := Prod.mk.inj (Except.ok.inj hpop)
          exact hes
        · split at hpop
          · obtain ⟨hright, hes⟩ := List.forall_mem_cons.mp hes
            obtain ⟨hleft, hes⟩ := List.forall_mem_cons.mp hes
            exact ih hpop (List.forall_mem_cons.mpr ⟨h.link _ _ _ _ _ hleft hright, hes⟩)
          · cases hpop
      · obtain ⟨rfl, rfl⟩ := Prod.mk.inj (Except.ok.inj hpop)
        exact hes

theorem Kept.onOperator (h : Kept source P) {expr ptr : Bytes} {st st' : ParseState}
    (hstep : onOperator expr ptr st = .ok st') (hst : ∀ e ∈ st.operands, P st.needJsonPayload e) :
    ∀ e ∈ st'.operands, P st'.needJsonPayload e := by
  cases hlookup : operators.lookup (getOperator ptr) with
  | none =>
      rw [RuleParser.onOperator, hlookup] at hstep
      cases hstep
  | some operator =>
      by_cases hop : operator.op = .lp
      · rw [RuleParser.onOperator, hlookup] at hstep
        simp only [hop, ne_eq, not_true_eq_false, if_false] at hstep
        obtain rfl := Except.ok.inj hstep
        exact hst
      · rw [onOperator_of_lookup expr hlookup hop st rfl] at hstep
        cases hpop : RuleParser.popOperators operator.priority st.operators st.operands with
        | error failure =>
            rw [hpop] at hstep
            cases hstep
        | ok popped =>
            rw [hpop] at hstep
            obtain rfl := Except.ok.inj hstep
            exact h.popOperators hpop hst

theorem Kept.onStop (h : Kept source P) {expr ptr : Bytes} {st st' : ParseState}
    (hstep : onStop source expr st ptr = .ok st')
    (hst : ∀ e ∈ st.operands, P st.needJsonPayload e) :
    ∀ e ∈ st'.operands, P st'.needJsonPayload e := by
  rw [RuleParser.onStop] at hstep
  split at hstep
  · exact h.onOperator hstep hst
  · rw [onOperand] at hstep
    split at hstep
    · cases hstep
    · rename_i operand hoperand
      obtain rfl := Except.ok.inj hstep
      intro e he
      rcases List.mem_cons.mp he with rfl | he
      · exact h.operand _ _ _ hoperand
      · exact h.mono e _ _ (hst e he)

theorem Kept.foldlM (h : Kept source P) {expr : Bytes} {ptrs : List Bytes} {st st' : ParseState}
    (hrun : ptrs.foldlM (RuleParser.onStop source expr) st = .ok st')
    (hst : ∀ e ∈ st.operands, P st.needJsonPayload e) :
    ∀ e ∈ st'.operands, P st'.needJsonPayload e := by
  induction ptrs generalizing st with
  | nil =>
      obtain rfl := Except.ok.inj hrun
      exact hst
  | cons ptr ptrs ih =>
      rw [List.foldlM_cons] at hrun
      cases hstop : RuleParser.onStop source expr st ptr with
      | error failure =>
          rw [hstop] at hrun
          cases hrun
      | ok next =>
          rw [hstop] at hrun
          exact ih hrun (h.onStop hstop hst)

/-- What the parser returns has every property that it keeps. -/
theorem Kept.root (h : Kept source P) {need : Bool} {text : Bytes} {parsed : ParsedFilter}
    (hparse : parseFilterExpression source need text = some (.ok parsed)) :
    P parsed.needJsonPayload parsed.root := by
  rw [parseFilterExpression_eq] at hparse
  have hparse := Option.some.inj hparse
  cases hfold : (stops (cstr text)).foldlM (RuleParser.onStop source (cstr text)) ⟨[], [], need⟩ with
  | error failure =>
      rw [hfold] at hparse
      cases hparse
  | ok st =>
      rw [hfold] at hparse
      change (RuleParser.onOperator (cstr text) [] st).bind _ = _ at hparse
      cases hend : RuleParser.onOperator (cstr text) [] st with
      | error failure =>
          rw [hend] at hparse
          cases hparse
      | ok last =>
          rw [hend] at hparse
          change parseResult (cstr text) last = .ok parsed at hparse
          have hst := h.foldlM hfold (fun e he => by cases he)
          have hlast := h.onOperator hend hst
          rw [parseResult] at hparse
          split at hparse
          · rename_i root hroot
            obtain rfl := Except.ok.inj hparse
            exact hlast root (by rw [hroot]; exact List.mem_singleton_self root)
          · cases hparse

end Forall

end RuleParser

/-! ### Expressions that can be evaluated -/

/-- Every link is set and every field is one of the source. -/
def FilterExpr.Safe (source : RegisteredSource) : FilterExpr → Prop
  | .value fieldMeta _ => ∃ field, source.field? fieldMeta.fieldName = some field
  | .const _ => True
  | .binary _ (some left) (some right) => left.Safe source ∧ right.Safe source
  | .binary _ _ _ => False

/-- An expression of a payload's field is one of a listener that asks for JSON. -/
def FilterExpr.Flagged (need : Bool) : FilterExpr → Prop
  | .value _ (some (_ :: _)) => need = true
  | .binary _ (some left) (some right) => left.Flagged need ∧ right.Flagged need
  | _ => True

theorem FilterExpr.Flagged.mono {need : Bool} {e : FilterExpr} (h : e.Flagged need) (more : Bool) :
    e.Flagged (need || more) := by
  match e with
  | .value _ (some (_ :: _)) =>
      have hneed : need = true := h
      simp [FilterExpr.Flagged, hneed]
  | .value _ (some []) => trivial
  | .value _ none => trivial
  | .const _ => trivial
  | .binary _ (some left) (some right) => exact ⟨h.1.mono more, h.2.mono more⟩
  | .binary _ (some _) none => trivial
  | .binary _ none _ => trivial

def TmqEvent.Fits {J : Type} (getObjectItem : J → Bytes → Option CJsonItem) : TmqEvent J → Prop
  | .message event => ∀ json, event.payloadAsJson = some json → ∀ name value,
      getObjectItem json name = some (.number value) → truncated value ≠ none
  | _ => True

section Safe

variable {J : Type} (getObjectItem : J → Bytes → Option CJsonItem)

theorem jsonItemValue_isSome {item : CJsonItem}
    (hfits : ∀ value, item = .number value → truncated value ≠ none) :
    ∃ v, jsonItemValue item = some v := by
  cases item with
  | number value =>
      obtain ⟨n, hn⟩ := Option.ne_none_iff_exists'.mp (hfits value rfl)
      exact ⟨.int n, by rw [jsonItemValue, hn]; rfl⟩
  | string s => exact ⟨_, rfl⟩
  | bool b => exact ⟨_, rfl⟩
  | null => exact ⟨_, rfl⟩
  | other => exact ⟨_, rfl⟩

theorem cellValue_json {field : EventDataField} (hfield : field.valueType = .json)
    (name : Option Bytes) (json : Option J) :
    cellValue getObjectItem field name (.json json)
      = (json.bind (getObjectItem · (name.getD []))).elim (some .null) jsonItemValue := by
  rw [cellValue, if_pos hfield]
  cases json.bind (getObjectItem · (name.getD [])) <;> rfl

/-- At the offset of a field lies a value of the field's type, whichever event
of the source it is. -/
theorem valueExprEvaluate_isSome {source : RegisteredSource} (hsource : source ∈ eventSources)
    {event : TmqEvent J} (hevent : event.type = source.eventType) (hfits : event.Fits getObjectItem)
    {fieldMeta : FieldMeta} (hfield : ∃ field, source.field? fieldMeta.fieldName = some field)
    (name : Option Bytes) :
    ∃ v, valueExprEvaluate getObjectItem source fieldMeta name event = some v := by
  obtain ⟨field, hfield⟩ := hfield
  have hmem := (RegisteredSource.field?_spec hfield).1
  rw [valueExprEvaluate, hfield, Option.bind_eq_bind, Option.bind_some]
  clear hfield
  simp only [eventSources, List.mem_cons, List.not_mem_nil, or_false] at hsource
  rcases hsource with rfl | rfl | rfl | rfl
  · cases event with
    | device offline clientId username =>
        simp only [deviceEvents, List.mem_cons, List.not_mem_nil, or_false] at hmem
        rcases hmem with rfl | rfl | rfl <;> exact ⟨_, rfl⟩
    | _ => cases hevent
  · cases event with
    | device offline clientId username =>
        simp only [topicEvents, List.mem_cons, List.not_mem_nil, or_false] at hmem
        rcases hmem with rfl | rfl <;> exact ⟨_, rfl⟩
    | _ => cases hevent
  · cases event with
    | subscription unsub clientId username topic subQos =>
        simp only [subscriptionEvents, List.mem_cons, List.not_mem_nil, or_false] at hmem
        rcases hmem with rfl | rfl | rfl | rfl | rfl <;> exact ⟨_, rfl⟩
    | _ => cases hevent
  · cases event with
    | message event =>
        simp only [messageEvents, List.mem_cons, List.not_mem_nil, or_false] at hmem
        rcases hmem with rfl | rfl | rfl | rfl | rfl
        · exact ⟨_, rfl⟩
        · exact ⟨_, rfl⟩
        · exact ⟨_, rfl⟩
        · exact ⟨_, rfl⟩
        · change ∃ v, cellValue getObjectItem ⟨jsonField, .json, 8, 24⟩ name
            (.json event.payloadAsJson) = some v
          rw [cellValue_json getObjectItem rfl]
          cases hitem : event.payloadAsJson.bind (getObjectItem · (name.getD [])) with
          | none => exact ⟨_, rfl⟩
          | some item =>
              obtain ⟨json, hjson, hitem⟩ := Option.bind_eq_some_iff.mp hitem
              apply jsonItemValue_isSome
              rintro value rfl
              exact hfits json hjson _ value hitem
    | _ => cases hevent

theorem FilterExpr.Safe.evaluate {source : RegisteredSource} (hsource : source ∈ eventSources)
    {event : TmqEvent J} (hevent : event.type = source.eventType) (hfits : event.Fits getObjectItem)
    {e : FilterExpr} (h : e.Safe source) :
    ∃ v, e.evaluate getObjectItem source event = some v := by
  match e with
  | .value fieldMeta name => exact valueExprEvaluate_isSome getObjectItem hsource hevent hfits h name
  | .const constant => exact ⟨_, rfl⟩
  | .binary op (some left) (some right) =>
      obtain ⟨v, hv⟩ := h.1.evaluate hsource hevent hfits
      obtain ⟨w, hw⟩ := h.2.evaluate hsource hevent hfits
      refine ⟨.bool (binaryResult op.op v w), ?_⟩
      rw [FilterExpr.evaluate, hv, Option.bind_eq_bind, Option.bind_some, hw]
      rfl
  | .binary _ (some _) none => exact h.elim
  | .binary _ none _ => exact h.elim

/-- An operator has a truth value. -/
theorem evaluate_binary {source : RegisteredSource} {event : TmqEvent J} {op : OperatorInfo}
    {l r : Option FilterExpr} {v : FilterValue}
    (h : (FilterExpr.binary op l r).evaluate getObjectItem source event = some v) :
    ∃ b, v = .bool b := by
  match l, r with
  | some left, some right =>
      rw [FilterExpr.evaluate] at h
      obtain ⟨leftResult, -, h⟩ := Option.bind_eq_some_iff.mp h
      obtain ⟨rightResult, -, h⟩ := Option.bind_eq_some_iff.mp h
      exact ⟨_, (Option.some.inj h).symm⟩
  | some _, none => cases h
  | none, _ => cases h

end Safe

/-! ### What is accepted -/

namespace RuleParser

variable {source : RegisteredSource}

theorem field?_self {name : Bytes} {field : EventDataField} (h : source.field? name = some field) :
    source.field? field.name = some field := by
  rw [(RegisteredSource.field?_spec h).2]
  exact h

theorem tmqConstExprNew_eq_const (value : Bytes) : ∃ v, tmqConstExprNew value = .const v := by
  rw [tmqConstExprNew]
  split
  · exact ⟨_, rfl⟩
  · split_ifs <;> exact ⟨_, rfl⟩

theorem tmqValueExprNew_safe {name : Bytes} {field : EventDataField}
    (h : source.field? name = some field) (payload : Option Bytes) :
    (tmqValueExprNew ⟨field.name, field.valueType⟩ payload).Safe source :=
  ⟨field, field?_self h⟩

/-- The expression of an operand can be evaluated, and one of a payload's field
has a name that asks for JSON. -/
theorem operandExpr_safe {value : Bytes} {e : FilterExpr}
    (h : operandExpr source.eventSource value = some e) (need : Bool) :
    e.Safe source ∧ e.Flagged (need || payloadPrefix.isPrefixOf value) := by
  rw [operandExpr] at h
  simp only [RegisteredSource.fieldsMeta_eventSource] at h
  cases hstarts : payloadPrefix.isPrefixOf value with
  | true =>
      rw [hstarts, if_pos rfl] at h
      obtain ⟨fieldMeta, hmeta, rfl⟩ := Option.map_eq_some_iff.mp h
      obtain ⟨field, hfield, rfl⟩ := Option.map_eq_some_iff.mp hmeta
      refine ⟨tmqValueExprNew_safe hfield _, ?_⟩
      rw [Bool.or_true, tmqValueExprNew]
      split
      · cases (tmqStrNew ((some (value.drop 8)).getD []) : Bytes) with
        | nil => trivial
        | cons c rest => rfl
      · trivial
  | false =>
      rw [hstarts, if_neg Bool.false_ne_true] at h
      cases hfield : source.field? value with
      | none =>
          rw [hfield] at h
          obtain ⟨v, hv⟩ := tmqConstExprNew_eq_const value
          obtain rfl := Option.some.inj h
          rw [hv]
          exact ⟨trivial, trivial⟩
      | some field =>
          rw [hfield] at h
          obtain rfl := Option.some.inj h
          refine ⟨tmqValueExprNew_safe hfield none, ?_⟩
          rw [tmqValueExprNew]
          split <;> trivial

theorem kept_safe (source : RegisteredSource) :
    Kept source.eventSource fun need e => e.Safe source ∧ e.Flagged need where
  mono _ _ more h := ⟨h.1, h.2.mono more⟩
  operand _ _ need h := operandExpr_safe h need
  link _ _ _ _ _ hl hr := ⟨⟨hl.1, hr.1⟩, ⟨hl.2, hr.2⟩⟩

theorem Kept.safe_root {need : Bool} {text : Bytes} {parsed : ParsedFilter}
    (hparse : parseFilterExpression source.eventSource need text = some (.ok parsed)) :
    parsed.root.Safe source ∧ parsed.root.Flagged parsed.needJsonPayload :=
  (kept_safe source).root hparse

def SafeMappings {A : Type} (source : RegisteredSource) (result : Interpreted A) : Prop :=
  ∀ select ∈ result.mappings, select.valueExpr.Safe source ∧
    select.valueExpr.Flagged result.needJsonPayload ∧ select.mappingName.length < 50

/-- No name of a JSON field has eight bytes. -/
theorem eventSources_json :
    ∀ source ∈ eventSources, ∀ field ∈ source.fields, field.valueType = .json →
      field.name.length < 8 := by decide

theorem columnExpr_safe (hsource : source ∈ eventSources) {col : Bytes} {kind : ColumnKind}
    {e : FilterExpr} {valueType : ExprValueType}
    (hkind : columnKind source.eventSource col = some kind)
    (hexpr : columnExpr col kind = .ok (e, valueType)) (need : Bool) :
    e.Safe source ∧ e.Flagged (need || kind.needsJson col) := by
  cases kind with
  | const valueType =>
      obtain ⟨v, hv⟩ := tmqConstExprNew_eq_const col
      obtain ⟨rfl, -⟩ := Prod.mk.inj (Except.ok.inj hexpr)
      rw [hv]
      exact ⟨trivial, trivial⟩
  | field fieldMeta =>
      rw [columnKind] at hkind
      split at hkind
      · cases hkind
      split at hkind
      · cases hkind
      obtain ⟨found, hfound, hsame⟩ := Option.map_eq_some_iff.mp hkind
      obtain rfl := ColumnKind.field.inj hsame
      rw [RegisteredSource.fieldsMeta_eventSource] at hfound
      obtain ⟨field, hfield, rfl⟩ := Option.map_eq_some_iff.mp hfound
      obtain ⟨hmem, hname⟩ := RegisteredSource.field?_spec hfield
      rw [columnExpr] at hexpr
      split at hexpr
      · rename_i hjson
        split at hexpr
        · cases hexpr
        rename_i hlong
        obtain ⟨rfl, -⟩ := Prod.mk.inj (Except.ok.inj hexpr)
        refine ⟨tmqValueExprNew_safe hfield _, ?_⟩
        cases hstarts : payloadPrefix.isPrefixOf col with
        | true =>
            have hneeds : (ColumnKind.field ⟨field.name, field.valueType⟩).needsJson col = true :=
              hstarts
            rw [hneeds, Bool.or_true, tmqValueExprNew, if_pos hjson]
            cases (tmqStrNew ((some (col.drop 8)).getD []) : Bytes) with
            | nil => trivial
            | cons c rest => rfl
        | false =>
            rw [hstarts, if_neg Bool.false_ne_true] at hname
            have hshort := eventSources_json source hsource field hmem hjson
            rw [hname] at hshort
            exact absurd hshort hlong
      · rename_i hjson
        obtain ⟨rfl, -⟩ := Prod.mk.inj (Except.ok.inj hexpr)
        refine ⟨tmqValueExprNew_safe hfield none, ?_⟩
        rw [tmqValueExprNew, if_neg hjson]
        trivial

theorem SafeMappings.interpretItem {A : Type} {plugins : PluginsInfo A}
    (hsource : source ∈ eventSources) {result next : Interpreted A}
    (h : SafeMappings source result) {item : SelectItem}
    (hstep : interpretItem plugins source.eventSource result item = .ok next) :
    SafeMappings source next := by
  unfold RuleParser.interpretItem at hstep
  split at hstep
  · cases hstep
  rename_i kind hkind
  split at hstep
  · cases hstep
  split at hstep
  · cases hstep
  rename_i hshort
  split at hstep
  · cases hstep
  rename_i e valueType hexpr
  obtain rfl := Except.ok.inj hstep
  obtain ⟨hsafe, hflagged⟩ := columnExpr_safe hsource hkind hexpr result.needJsonPayload
  intro select hselect
  rcases List.mem_append.mp hselect with hselect | hselect
  · obtain ⟨hsafe, hflagged, hname⟩ := h select hselect
    exact ⟨hsafe, hflagged.mono _, hname⟩
  · obtain rfl := List.mem_singleton.mp hselect
    exact ⟨hsafe, hflagged, Nat.lt_of_not_le hshort⟩

theorem SafeMappings.interpretSchema {A : Type} {plugins : PluginsInfo A}
    (hsource : source ∈ eventSources) {items : List SelectItem} {start result : Interpreted A}
    (hstart : SafeMappings source start)
    (hrun : items.foldlM (RuleParser.interpretItem plugins source.eventSource) start
      = .ok result) : SafeMappings source result := by
  induction items generalizing start with
  | nil =>
      obtain rfl := Except.ok.inj hrun
      exact hstart
  | cons item items ih =>
      rw [List.foldlM_cons] at hrun
      cases hstep : RuleParser.interpretItem plugins source.eventSource start item with
      | error failure =>
          rw [hstep] at hrun
          cases hrun
      | ok next =>
          rw [hstep] at hrun
          exact ih (hstart.interpretItem hsource hstep) hrun

theorem readSource_mem {rule ptr : Bytes} {topic : Option Bytes} {rest : Bytes}
    (h : readSource rule ptr = .ok (source, topic, rest)) : source ∈ eventSources := by
  rw [readSource] at h
  split at h
  · dsimp only at h
    split at h
    · cases h
    split at h
    · cases h
    rename_i found hfound
    obtain ⟨rfl, -⟩ := Prod.mk.inj (Except.ok.inj h)
    exact List.mem_of_find?_eq_some hfound
  · obtain ⟨rfl, -⟩ := Prod.mk.inj (Except.ok.inj h)
    simp [eventSources]

end RuleParser

/-- What holds of every rule that is accepted. -/
structure RuleParseResult.Safe {A : Type} (result : RuleParseResult A) : Prop where
  source : result.source ∈ eventSources
  mappings : ∀ select ∈ result.mappings, select.valueExpr.Safe result.source ∧
    select.valueExpr.Flagged result.needJsonPayload ∧ select.mappingName.length < 50
  filter : ∀ filter, result.filter = some filter → filter.Safe result.source ∧
    filter.Flagged result.needJsonPayload

theorem RuleParser.readFilter_safe {A : Type} {rule ptr : Bytes} {source : RegisteredSource}
    (hsource : source ∈ eventSources) {topic : Option Bytes} {interpreted : Interpreted A}
    (hmappings : SafeMappings source interpreted) {result : RuleParseResult A}
    (h : readFilter rule source topic interpreted ptr = some (.ok result)) : result.Safe := by
  unfold readFilter at h
  split at h
  · cases h
  split at h
  · obtain rfl := Except.ok.inj (Option.some.inj h)
    exact ⟨hsource, hmappings, fun filter hfilter => by cases hfilter⟩
  split at h
  · obtain ⟨outcome, hparse, hresult⟩ := Option.map_eq_some_iff.mp h
    cases outcome with
    | error failure => cases hresult
    | ok parsed =>
        obtain rfl := Except.ok.inj hresult
        have hneed := needJsonPayload_of_parse hparse
        refine ⟨hsource, ?_, ?_⟩
        · intro select hselect
          obtain ⟨hsafe, hflagged, hname⟩ := hmappings select hselect
          refine ⟨hsafe, ?_, hname⟩
          change select.valueExpr.Flagged parsed.needJsonPayload
          rw [hneed]
          exact hflagged.mono _
        · intro filter hfilter
          obtain rfl := Option.some.inj hfilter
          exact Kept.safe_root hparse
  · cases h

/-- Every rule that is accepted is safe. -/
theorem RuleParser.tmqRuleParse_safe {A : Type} {plugins : PluginsInfo A} {text : Bytes}
    {result : RuleParseResult A} (h : tmqRuleParse plugins text = some (.ok result)) :
    result.Safe := by
  unfold tmqRuleParse at h
  dsimp only at h
  split at h
  · split at h
    · cases h
    · cases h
    split at h
    · cases h
    rename_i source topic ptr hread
    have hsource := readSource_mem hread
    split at h
    · cases h
    rename_i interpreted hschema
    refine readFilter_safe hsource ?_ h
    refine SafeMappings.interpretSchema hsource ?_ hschema
    intro select hselect
    cases hselect
  · cases h

/-- The filter is one operand and has no truth value on an event. -/
def RuleListener.AsksOperand {A J : Type} (getObjectItem : J → Bytes → Option CJsonItem)
    (listener : RuleListener A) (event : TmqEvent J) : Prop :=
  ∃ filter v, listener.filter = some filter ∧ (∀ op l r, filter ≠ .binary op l r) ∧
    filter.evaluate getObjectItem listener.source event = some v ∧ v.boolean = none

theorem foldlM_onMapping_isSome {J : Type} (getObjectItem : J → Bytes → Option CJsonItem)
    {source : RegisteredSource} (hsource : source ∈ eventSources) {event : TmqEvent J}
    (hevent : event.type = source.eventType) (hfits : event.Fits getObjectItem)
    {selects : List SchemaMappingItem} (hselects : ∀ select ∈ selects, select.valueExpr.Safe source)
    (start : (Bytes → Option FilterValue) × List (Bytes × FilterValue)) :
    ∃ values, selects.foldlM (onMapping getObjectItem source event) start = some values := by
  induction selects generalizing start with
  | nil => exact ⟨start, rfl⟩
  | cons select selects ih =>
      obtain ⟨hfirst, hrest⟩ := List.forall_mem_cons.mp hselects
      obtain ⟨v, hv⟩ := hfirst.evaluate getObjectItem hsource hevent hfits
      have hstep : ∃ next, onMapping getObjectItem source event start select = some next := by
        rw [onMapping, hv, Option.bind_eq_bind, Option.bind_some]
        split <;> exact ⟨_, rfl⟩
      obtain ⟨next, hnext⟩ := hstep
      rw [List.foldlM_cons, hnext]
      exact ih hrest next

/-- Running the listener of an accepted rule on an event of its source, whose
payload's numbers fit, up to the adaptor's call has a result unless the filter is
one operand without a truth value. -/
theorem publish_accepted {A J : Type} (getObjectItem : J → Bytes → Option CJsonItem)
    (plugins : PluginsInfo A) (text : Bytes) (result : RuleParseResult A)
    (h : RuleParser.tmqRuleParse plugins text = some (.ok result)) (event : TmqEvent J)
    (hevent : event.type = result.source.eventType) (hfits : event.Fits getObjectItem) :
    tmqListenerPublishEvent getObjectItem (makeEventListener result) event = none ↔
      (makeEventListener result).AsksOperand getObjectItem event := by
  have hsafe := RuleParser.tmqRuleParse_safe h
  obtain ⟨values, hvalues⟩ := foldlM_onMapping_isSome getObjectItem hsafe.source hevent hfits
    (fun select hselect => (hsafe.mappings select hselect).1) (fun _ => none, [])
  have hpass : (makeEventListener result).passes getObjectItem event = none ↔
      (makeEventListener result).AsksOperand getObjectItem event := by
    rw [RuleListener.passes]
    constructor
    · intro hnone
      cases hfilter : result.filter with
      | none =>
          simp [makeEventListener, hfilter] at hnone
      | some filter =>
          obtain ⟨v, hv⟩ := (hsafe.filter filter hfilter).1.evaluate getObjectItem hsafe.source
            hevent hfits
          have hv : filter.evaluate getObjectItem (makeEventListener result).source event
              = some v := hv
          have hboolean : v.boolean = none := by
            simp only [makeEventListener, hfilter, Option.bind_eq_none_iff] at hnone
            exact hnone v hv
          refine ⟨filter, v, hfilter, ?_, hv, hboolean⟩
          rintro op l r rfl
          obtain ⟨b, rfl⟩ := evaluate_binary getObjectItem hv
          cases hboolean
    · rintro ⟨filter, v, hfilter, -, hv, hboolean⟩
      simp only [hfilter, hv, Option.bind_some, hboolean]
  rw [← hpass, tmqListenerPublishEvent]
  cases (makeEventListener result).passes getObjectItem event with
  | none => simp
  | some pass =>
      have hloop : (makeEventListener result).mappings.foldlM (onMapping getObjectItem
          (makeEventListener result).source event) (fun _ => none, []) = some values := hvalues
      cases pass <;> simp [hloop]

/-- `select qos as {p.x} from t where qos`. -/
def operandRuleText : Bytes :=
  [115, 101, 108, 101, 99, 116, 32, 113, 111, 115, 32, 97, 115, 32, 123, 112, 46, 120, 125, 32,
    102, 114, 111, 109, 32, 116, 32, 119, 104, 101, 114, 101, 32, 113, 111, 115]

/-- Its listener takes the low byte of the quality of service for a truth value:
it calls the adaptor for 1, and for 2 it reads a byte that is none. -/
theorem publish_accepted_operand :
    ∃ result, RuleParser.tmqRuleParse (fun _ => some (⟨(), fun _ => some .integer⟩ :
        PluginHandle Unit)) operandRuleText = some (.ok result) ∧
      tmqListenerPublishEvent (fun (_ : Unit) _ => none) (makeEventListener result)
        (.message ⟨[99], [117], 1, false, none⟩) ≠ none ∧
      ¬(makeEventListener result).AsksOperand (fun (_ : Unit) _ => none)
        (.message ⟨[99], [117], 1, false, none⟩) ∧
      (makeEventListener result).AsksOperand (fun (_ : Unit) _ => none)
        (.message ⟨[99], [117], 2, false, none⟩) := by
  have hparsed : ((RuleParser.tmqRuleParse (fun _ => some (⟨(), fun _ => some .integer⟩ :
        PluginHandle Unit)) operandRuleText).bind Except.toOption).map (fun result =>
          (result.source.eventType,
            (tmqListenerPublishEvent (fun (_ : Unit) _ => none) (makeEventListener result)
              (.message ⟨[99], [117], 1, false, none⟩)).isSome,
            (tmqListenerPublishEvent (fun (_ : Unit) _ => none) (makeEventListener result)
              (.message ⟨[99], [117], 2, false, none⟩)).isNone))
      = some (.message, true, true) := by decide +kernel
  obtain ⟨result, hresult, hobserved⟩ := Option.map_eq_some_iff.mp hparsed
  obtain ⟨parsed, hparse, hok⟩ := Option.bind_eq_some_iff.mp hresult
  obtain ⟨htype, hobserved⟩ := Prod.mk.inj hobserved
  obtain ⟨hone, htwo⟩ := Prod.mk.inj hobserved
  cases parsed with
  | error failure => cases hok
  | ok result' =>
      obtain rfl := Option.some.inj hok
      have hcalled := Option.isSome_iff_ne_none.mp hone
      have hfits : ∀ qos, (TmqEvent.message ⟨[99], [117], qos, false, none⟩).Fits
          (fun (_ : Unit) _ => none) := by
        intro qos json hjson
        cases hjson
      have hiff : ∀ qos, tmqListenerPublishEvent (fun (_ : Unit) _ => none)
          (makeEventListener result') (.message ⟨[99], [117], qos, false, none⟩) = none ↔ _ :=
        fun qos => publish_accepted _ _ operandRuleText result' hparse
          (.message ⟨[99], [117], qos, false, none⟩) htype.symm (hfits qos)
      exact ⟨result', hparse, hcalled, (hiff 1).not.mp hcalled,
        (hiff 2).mp (Option.isNone_iff_eq_none.mp htwo)⟩

end TinyMqtt
