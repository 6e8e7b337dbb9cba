import TinyMqtt.Base.Integer

/-!
Filter expressions of rules (`rule_engine/mqtt_events.c`) and the event sources
whose fields they name (`rule_engine/mqtt_event_source.c`). Of a field's
description the size and the offset are left out: only the evaluation of an
expression reads them.
-/

namespace TinyMqtt

/-! ### Strings -/

/-- A text of the source, for its error messages. -/
def sourceText (s : String) : Bytes := s.toList.map fun c => UInt8.ofNat c.toNat

/-- `tmq_str_is_string`: the first and the last byte are the same quote, which
one byte alone is for both. -/
def tmqStrIsString (s : Bytes) : Bool :=
  (s.head? = some 39 ∧ s.getLast? = some 39) ∨ (s.head? = some 34 ∧ s.getLast? = some 34)

/-- `tmq_str_substr`, which is a null pointer for a range outside the string. -/
def tmqStrSubstr (s : Bytes) (start len : Nat) : Option Bytes :=
  if s.length ≤ start ∨ s.length < start + len then none else some ((s.drop start).take len)

/-! ### Event sources -/

inductive ExprValueType where
  | str | int | bool | json | null
  deriving DecidableEq, Repr

/-- `event_data_field_meta_t`. -/
structure FieldMeta where
  fieldName : Bytes
  valueType : ExprValueType
  deriving DecidableEq, Repr

/-- `event_source_info_t`. The four registered names are short, so that an
error message with one fits its 256 bytes. -/
structure EventSource where
  name : Bytes
  fieldsMeta : Bytes → Option FieldMeta
  name_short : name.length ≤ 12

/-- The event source `message`, as `tmq_event_sources_init` registers it. -/
def messageSource : EventSource where
  name := [109, 101, 115, 115, 97, 103, 101]
  fieldsMeta name :=
    [([99, 108, 105, 101, 110, 116, 95, 105, 100], ExprValueType.str),
      ([117, 115, 101, 114, 110, 97, 109, 101], .str), ([113, 111, 115], .int),
      ([114, 101, 116, 97, 105, 110], .int), ([112, 97, 121, 108, 111, 97, 100], .json)].lookup name
      |>.map fun valueType => ⟨name, valueType⟩
  name_short := by decide

/-! ### Expressions -/

inductive BinaryExprOp where
  | eq | gt | gte | lt | lte | and | or | lp | rp
  deriving DecidableEq, Repr

/-- `operator_into_t`. -/
structure OperatorInfo where
  op : BinaryExprOp
  priority : Nat
  deriving DecidableEq, Repr

/-- `filter_expr_value_t` of a constant. A string may be a null pointer. -/
inductive ExprValue where
  | str (s : Option Bytes)
  | int (n : Int)
  | bool (b : Bool)
  deriving DecidableEq, Repr

/-- `tmq_filter_expr_t`. The links of a binary expression may be unset. -/
inductive FilterExpr where
  | value (fieldMeta : FieldMeta) (payloadJsonField : Option Bytes)
  | const (value : ExprValue)
  | binary (op : OperatorInfo) (left right : Option FilterExpr)

/-- Every link is set. -/
def FilterExpr.Linked : FilterExpr → Prop
  | .value _ _ => True
  | .const _ => True
  | .binary _ (some left) (some right) => left.Linked ∧ right.Linked
  | .binary _ _ _ => False

def tmqValueExprNew (fieldMeta : FieldMeta) (payloadField : Option Bytes) : FilterExpr :=
  .value fieldMeta
    (if fieldMeta.valueType = .json then some (tmqStrNew (payloadField.getD [])) else none)

def trueWord : Bytes := [116, 114, 117, 101]

def falseWord : Bytes := [102, 97, 108, 115, 101]

def tmqConstExprNew (value : Bytes) : FilterExpr :=
  match tmqStrToInt value with
  | some integer => .const (.int integer)
  | none =>
      if value = trueWord then .const (.bool true)
      else if value = falseWord then .const (.bool false)
      else if tmqStrIsString value then .const (.str (tmqStrSubstr value 1 (value.length - 2)))
      else .const (.str (some (tmqStrNew value)))

def tmqBinaryExprNew (op : BinaryExprOp) (priority : Nat) : FilterExpr :=
  .binary ⟨op, priority⟩ none none

def FilterExpr.link (e left right : FilterExpr) : FilterExpr :=
  match e with
  | .binary op _ _ => .binary op (some left) (some right)
  | e => e

end TinyMqtt
