import TinyMqtt.Rule.Expr
import TinyMqtt.Topic.Tree

/-!
Events and the evaluation of filter expressions (`rule_engine/mqtt_events.c`,
`rule_engine/mqtt_event_source.c`). An expression reads an event's data at the
offset that the description of its field gives, whatever the event is: a read
of something else than the field's type, or past what is there, has no result.
Neither has the result of an operator whose links are unset.

JSON is a library's. Its values are a parameter here, with the look-up of an
object's field and what the library tells about the value found.
-/

namespace TinyMqtt

/-! ### TmqEvent sources -/

inductive EventType where
  | device | topic | message | subscription
  deriving DecidableEq, Repr

/-- A call of `event_data_field`. -/
structure EventDataField where
  name : Bytes
  valueType : ExprValueType
  size : Nat
  offset : Nat
  deriving DecidableEq, Repr

/-- A call of `register_event_source`. -/
structure RegisteredSource where
  eventType : EventType
  name : Bytes
  fields : List EventDataField
  name_short : name.length ≤ 12

/-- The entry of the map `fields_meta` for a name. -/
def RegisteredSource.field? (source : RegisteredSource) (name : Bytes) : Option EventDataField :=
  source.fields.find? (·.name = name)

theorem RegisteredSource.field?_spec {source : RegisteredSource} {name : Bytes}
    {field : EventDataField} (h : source.field? name = some field) :
    field ∈ source.fields ∧ field.name = name := by
  rw [RegisteredSource.field?] at h
  exact ⟨List.mem_of_find?_eq_some h, by simpa using List.find?_some h⟩

def RegisteredSource.eventSource (source : RegisteredSource) : EventSource where
  name := source.name
  fieldsMeta name := (source.field? name).map fun field => ⟨field.name, field.valueType⟩
  name_short := source.name_short

@[simp] theorem RegisteredSource.fieldsMeta_eventSource (source : RegisteredSource)
    (name : Bytes) : source.eventSource.fieldsMeta name
      = (source.field? name).map fun field => ⟨field.name, field.valueType⟩ := rfl

def actionField : Bytes := [97, 99, 116, 105, 111, 110]

def clientIdField : Bytes := [99, 108, 105, 101, 110, 116, 95, 105, 100]

def usernameField : Bytes := [117, 115, 101, 114, 110, 97, 109, 101]

def topicField : Bytes := [116, 111, 112, 105, 99]

def subQosField : Bytes := [115, 117, 98, 95, 113, 111, 115]

def qosField : Bytes := [113, 111, 115]

def retainField : Bytes := [114, 101, 116, 97, 105, 110]

def jsonField : Bytes := [112, 97, 121, 108, 111, 97, 100]

theorem deviceName_short : ([100, 101, 118, 105, 99, 101] : Bytes).length ≤ 12 := by decide

theorem topicName_short : ([116, 111, 112, 105, 99] : Bytes).length ≤ 12 := by decide

theorem subscriptionName_short :
    ([115, 117, 98, 115, 99, 114, 105, 112, 116, 105, 111, 110] : Bytes).length ≤ 12 := by decide

theorem messageName_short : ([109, 101, 115, 115, 97, 103, 101] : Bytes).length ≤ 12 := by decide

def deviceEvents : RegisteredSource where
  eventType := .device
  name := [100, 101, 118, 105, 99, 101]
  fields := [⟨actionField, .int, 4, 0⟩, ⟨clientIdField, .str, 8, 8⟩, ⟨usernameField, .str, 8, 16⟩]
  name_short := deviceName_short

/-- The source `topic`. It is registered for the events of devices. -/
def topicEvents : RegisteredSource where
  eventType := .device
  name := [116, 111, 112, 105, 99]
  fields := [⟨actionField, .int, 4, 0⟩, ⟨topicField, .str, 8, 8⟩]
  name_short := topicName_short

def subscriptionEvents : RegisteredSource where
  eventType := .subscription
  name := [115, 117, 98, 115, 99, 114, 105, 112, 116, 105, 111, 110]
  fields := [⟨actionField, .int, 4, 0⟩, ⟨clientIdField, .str, 8, 8⟩, ⟨usernameField, .str, 8, 16⟩,
    ⟨topicField, .str, 8, 24⟩, ⟨subQosField, .int, 1, 32⟩]
  name_short := subscriptionName_short

def messageEvents : RegisteredSource where
  eventType := .message
  name := [109, 101, 115, 115, 97, 103, 101]
  fields := [⟨clientIdField, .str, 8, 0⟩, ⟨usernameField, .str, 8, 8⟩, ⟨qosField, .int, 1, 16⟩,
    ⟨retainField, .int, 4, 20⟩, ⟨jsonField, .json, 8, 24⟩]
  name_short := messageName_short

/-- The map `event_sources_g`, as `tmq_event_sources_init` fills it. -/
def eventSources : List RegisteredSource :=
  [deviceEvents, topicEvents, subscriptionEvents, messageEvents]

def eventSource? (name : Bytes) : Option RegisteredSource := eventSources.find? (·.name = name)

/-! ### Events -/

/-- What the library tells about a value of an object. A number is what the
library read; one too large for a `double` is no `int64_t` either. -/
inductive CJsonItem where
  | string (s : Bytes)
  | number (value : ℚ)
  | bool (b : Bool)
  | null
  | other
  deriving DecidableEq

/-- What stands at an offset of an event's data: a string, which may be a null
pointer, an integer of some bytes, or JSON. -/
inductive EventCell (J : Type) where
  | str (s : Option Bytes)
  | int (size n : Nat)
  | json (json : Option J)

/-- `tmq_event_t` with its data: `tmq_device_event_data_t`,
`tmq_topic_event_data_t`, `tmq_subscription_event_data_t` or
`tmq_pub_event_data_t`. The second of the two actions is the one given. -/
inductive TmqEvent (J : Type) where
  | device (offline : Bool) (clientId username : Option Bytes)
  | topic (removed : Bool) (topic : Option Bytes)
  | subscription (unsub : Bool) (clientId username topic : Option Bytes) (subQos : UInt8)
  | message (event : PubEventData J)

namespace TmqEvent

variable {J : Type}

def type : TmqEvent J → EventType
  | device .. => .device
  | topic .. => .topic
  | subscription .. => .subscription
  | message _ => .message

/-- The members of an event's data by their offsets. -/
def cells : TmqEvent J → List (Nat × EventCell J)
  | device offline clientId username =>
      [(0, .int 4 offline.toNat), (8, .str clientId), (16, .str username)]
  | topic removed name => [(0, .int 4 removed.toNat), (8, .str name)]
  | subscription unsub clientId username name subQos =>
      [(0, .int 4 unsub.toNat), (8, .str clientId), (16, .str username), (24, .str name),
        (32, .int 1 subQos.toNat)]
  | message event =>
      [(0, .str (some event.clientId)), (8, .str (some event.username)), (16, .int 1 event.qos),
        (20, .int 4 event.retain.toNat), (24, .json event.payloadAsJson)]

end TmqEvent

/-! ### Values -/

/-- `filter_expr_value_t`. A null pointer to a string is a null whose member
`str` was written; in the union of `json` and `null` nothing was. -/
inductive FilterValue where
  | str (s : Bytes)
  | int (n : Int)
  | bool (b : Bool)
  | json
  | null
  | nullStr
  deriving DecidableEq, Repr

def FilterValue.type : FilterValue → ExprValueType
  | str _ => .str
  | int _ => .int
  | bool _ => .bool
  | json => .json
  | null | nullStr => .null

/-- `strcmp` is below zero. -/
def strcmpLt (s t : Bytes) : Bool := cstr s < cstr t

/-- What `binary_expr_evaluate` makes of its two values. -/
def binaryResult (op : BinaryExprOp) (left right : FilterValue) : Bool :=
  match op, left, right with
  | .eq, .str s, .str t => cstr s = cstr t
  | .eq, .int n, .int m => n = m
  | .eq, .bool a, .bool b => a = b
  | .gt, .int n, .int m => m < n
  | .gt, .str s, .str t => strcmpLt t s
  | .gte, .int n, .int m => m ≤ n
  | .gte, .str s, .str t => !strcmpLt s t
  | .lt, .int n, .int m => n < m
  | .lt, .str s, .str t => strcmpLt s t
  | .lte, .int n, .int m => n ≤ m
  | .lte, .str s, .str t => !strcmpLt t s
  | .and, .bool a, .bool b => a && b
  | .or, .bool a, .bool b => a || b
  | _, _, _ => false

/-- The conversion of a number to `int64_t`. -/
def truncated (value : ℚ) : Option Int := checkedInt64 (value.num.tdiv value.den)

/-- `value_expr_evaluate` on the value of a JSON object's field. -/
def jsonItemValue : CJsonItem → Option FilterValue
  | .string s => some (.str (tmqStrNew s))
  | .number value => (truncated value).map .int
  | .bool b => some (.bool b)
  | .null => some .null
  | .other => some .json

section Evaluate

variable {J : Type} (getObjectItem : J → Bytes → Option CJsonItem)

/-- `value_expr_evaluate` on what stands at the field's offset. -/
def cellValue (field : EventDataField) (payloadJsonField : Option Bytes) :
    EventCell J → Option FilterValue
  | .int size n =>
      if field.valueType = .int ∧ field.size = size then
        some (.int (Int.bmod n (2 ^ (8 * size))))
      else none
  | .str s =>
      if field.valueType = .str then some (s.elim .nullStr fun s => .str (tmqStrNew s)) else none
  | .json json =>
      if field.valueType = .json then
        match json.bind (getObjectItem · (payloadJsonField.getD [])) with
        | none => some .null
        | some item => jsonItemValue item
      else none

def valueExprEvaluate (source : RegisteredSource) (fieldMeta : FieldMeta)
    (payloadJsonField : Option Bytes) (event : TmqEvent J) : Option FilterValue := do
  let field ← source.field? fieldMeta.fieldName
  let cell ← event.cells.lookup field.offset
  cellValue getObjectItem field payloadJsonField cell

/-- `const_expr_evaluate`. The copy of a null pointer is an empty string. -/
def constExprEvaluate : ExprValue → FilterValue
  | .str s => .str (tmqStrNew (s.getD []))
  | .int n => .int n
  | .bool b => .bool b

/-- `evaluate` of an expression, `binary_expr_evaluate` for an operator. -/
def FilterExpr.evaluate (source : RegisteredSource) (event : TmqEvent J) :
    FilterExpr → Option FilterValue
  | .value fieldMeta payloadJsonField =>
      valueExprEvaluate getObjectItem source fieldMeta payloadJsonField event
  | .const constant => some (constExprEvaluate constant)
  | .binary op (some left) (some right) => do
      let leftResult ← left.evaluate source event
      let rightResult ← right.evaluate source event
      return .bool (binaryResult op.op leftResult rightResult)
  | .binary _ _ _ => none

end Evaluate

end TinyMqtt
