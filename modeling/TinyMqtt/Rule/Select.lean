import TinyMqtt.Rule.Events
import TinyMqtt.Rule.Parser

/-!
The parser of rules (`tmq_rule_parse` in `rule_engine/mqtt_rule_parser.c`):
columns, an event source and an optional filter. The plugins that are loaded
and their parameters are a parameter.

`mapping_name` has room for 49 bytes and the buffer of an error message for 255.
A longer name or message is written over what follows, and a column `payload`
without a field is read past its end; then there is no result.
-/

namespace TinyMqtt

inductive AdaptorValueType where
  | str | integer | bool
  deriving DecidableEq, Repr

/-- `tmq_plugin_handle_t`. Adaptors are named by their addresses. -/
structure PluginHandle (A : Type) where
  adaptor : A
  adaptorParameters : Bytes → Option AdaptorValueType

/-- `broker->plugins_info`. -/
abbrev PluginsInfo (A : Type) := Bytes → Option (PluginHandle A)

structure SchemaMappingItem where
  valueExpr : FilterExpr
  mapToParameter : Bool
  mappingName : Bytes
  mappingType : ExprValueType

/-- `tmq_rule_parse_result_t` of a rule that was accepted, with the source whose
descriptions its expressions point to. -/
structure RuleParseResult (A : Type) where
  mappings : List SchemaMappingItem
  adaptor : A
  source : RegisteredSource
  sourceTopic : Option Bytes
  filter : Option FilterExpr
  needJsonPayload : Bool

namespace RuleParser

/-- How a call fails: with a report, in its filter, or by writing or reading
where it must not. -/
inductive RuleFailure where
  | report (errorPos : Nat) (errorInfo : Bytes)
  | filter (failure : ParseFailure)
  | longReport
  | longName
  | pastColumn
  deriving DecidableEq, Repr

/-- `set_error_info` and the failure that follows it. -/
def setErrorInfo (pos : Nat) (reason : Bytes) : RuleFailure :=
  if reason.length < 256 then .report pos reason else .longReport

def syntaxErrorAt (rule ptr : Bytes) : RuleFailure :=
  setErrorInfo (rule.length - ptr.length) (sourceText "Syntax error in expression")

/-! ### Words -/

/-- `tolower` in the C locale. -/
def toLower (c : UInt8) : UInt8 := if 65 ≤ c ∧ c ≤ 90 then c + 32 else c

/-- `strncasecmp` finds no difference in the length of a word of small letters. -/
def startsWith (word ptr : Bytes) : Bool := (ptr.take word.length).map toLower = word

/-- `select `, `as `, `from ` and `where `. -/
def selectWord : Bytes := [115, 101, 108, 101, 99, 116, 32]

def asWord : Bytes := [97, 115, 32]

def fromWord : Bytes := [102, 114, 111, 109, 32]

def whereWord : Bytes := [119, 104, 101, 114, 101, 32]

def comma : UInt8 := 44
def leftBrace : UInt8 := 123
def rightBrace : UInt8 := 125
def dot : UInt8 := 46

/-! ### Columns -/

structure SelectItem where
  sourceCol : Bytes
  targetCol : Bytes
  deriving DecidableEq, Repr

def isColumnByte (c : UInt8) : Bool := !isBlank c && c ≠ comma

/-- What one round of the loop over the columns ends with: a column and where
the next one starts, the last column and where the source starts, or where the
syntax is wrong. -/
inductive ColumnRead where
  | more (item : SelectItem) (ptr : Bytes)
  | last (item : SelectItem) (ptr : Bytes)
  | wrong (ptr : Bytes)

/-- A round of the loop from the place after a column's name or alias on. -/
def afterColumn (item : SelectItem) (ptr : Bytes) : ColumnRead :=
  if ptr.head? = some comma then .more item (skipBlank ptr.tail)
  else if startsWith fromWord ptr then .last item (skipBlank (ptr.drop 5))
  else .wrong ptr

/-- One round of the loop. No byte of a column is a comma, so the test for one
comes first with or without an alias. -/
def readColumn (ptr : Bytes) : ColumnRead :=
  let sourceCol := ptr.takeWhile isColumnByte
  let ptr := skipBlank (ptr.dropWhile isColumnByte)
  if startsWith asWord ptr then
    let ptr := skipBlank (ptr.drop 3)
    afterColumn ⟨sourceCol, ptr.takeWhile isColumnByte⟩ (skipBlank (ptr.dropWhile isColumnByte))
  else afterColumn ⟨sourceCol, tmqStrNew sourceCol⟩ ptr

def readColumns : Nat → Bytes → Option (Except Bytes (List SelectItem × Bytes))
  | 0, _ => none
  | fuel + 1, ptr =>
      match readColumn ptr with
      | .wrong ptr => some (.error ptr)
      | .last item ptr => some (.ok ([item], ptr))
      | .more item ptr =>
          (readColumns fuel ptr).map fun read => read.map fun (items, ptr) => (item :: items, ptr)

/-! ### The event source -/

def isSourceByte (c : UInt8) : Bool := !isBlank c && c ≠ rightBrace

/-- The part of the text after `from `: a source's name in braces or a topic,
which is a topic of messages, and where the text goes on. -/
def readSource (rule ptr : Bytes) :
    Except RuleFailure (RegisteredSource × Option Bytes × Bytes) :=
  if ptr.head? = some leftBrace then
    let p := ptr.dropWhile isSourceByte
    if p.head? ≠ some rightBrace then .error (syntaxErrorAt rule ptr)
    else
      let source := (ptr.takeWhile isSourceByte).tail
      match eventSource? source with
      | none => .error (setErrorInfo (rule.length - ptr.length)
          (sourceText "Invalid event source: " ++ source))
      | some sourceInfo => .ok (sourceInfo, none, skipBlank p.tail)
  else
    .ok (messageEvents, some (ptr.takeWhile (!isBlank ·)), skipBlank (ptr.dropWhile (!isBlank ·)))

/-! ### What the columns mean -/

def parseParameterColumn (column : Bytes) : Option (Bytes × Bytes) :=
  if column.length ≤ 2 then none
  else
    let inner := (column.drop 1).take (column.length - 2)
    let pluginName := inner.takeWhile (· ≠ dot)
    let parameterName := (inner.dropWhile (· ≠ dot)).tail
    if pluginName = [] ∨ inner.dropWhile (· ≠ dot) = [] then none
    else if parameterName = [] then none
    else some (pluginName, parameterName)

/-- Whether a column is a constant, and of which type, or a field. -/
inductive ColumnKind where
  | const (valueType : ExprValueType)
  | field (fieldMeta : FieldMeta)

/-- A column of this kind sets `need_json_payload`. -/
def ColumnKind.needsJson (kind : ColumnKind) (sourceCol : Bytes) : Bool :=
  match kind with
  | .const _ => false
  | .field _ => payloadPrefix.isPrefixOf sourceCol

/-- The tests of `interpret_schema` on a source column. -/
def columnKind (source : EventSource) (sourceCol : Bytes) : Option ColumnKind :=
  if tmqStrIsString sourceCol then some (.const .str)
  else if (tmqStrToInt sourceCol).isSome then some (.const .int)
  else
    (source.fieldsMeta
      (if payloadPrefix.isPrefixOf sourceCol then payloadField else sourceCol)).map .field

/-- The tests on a target column: the adaptor if it names one, whether it is a
parameter, and the name. -/
def interpretTarget {A : Type} (plugins : PluginsInfo A) (targetCol : Bytes) :
    Except RuleFailure (Option A × Bool × Bytes) :=
  if targetCol.head? = some leftBrace ∧ targetCol.getLast? = some rightBrace then
    match parseParameterColumn targetCol with
    | none => .error (setErrorInfo 0 (sourceText "Invalid parameter: " ++ targetCol))
    | some (pluginName, parameterName) =>
        match plugins pluginName with
        | none => .error (setErrorInfo 0
            (sourceText "adaptor plugin \"" ++ pluginName ++ sourceText "\" is not loaded"))
        | some pluginHandle =>
            match pluginHandle.adaptorParameters parameterName with
            | none => .error (setErrorInfo 0
                (sourceText "adaptor plugin \"" ++ pluginName ++
                  sourceText "\" has no parameter named \"" ++ parameterName ++ sourceText "\""))
            | some _ => .ok (some pluginHandle.adaptor, true, parameterName)
  else .ok (none, false, if payloadPrefix.isPrefixOf targetCol then targetCol.drop 8 else targetCol)

/-- The expression of a source column and its type. The name of a payload's
field is read from the ninth byte on. -/
def columnExpr (sourceCol : Bytes) : ColumnKind → Except RuleFailure (FilterExpr × ExprValueType)
  | .const valueType => .ok (tmqConstExprNew sourceCol, valueType)
  | .field fieldMeta =>
      if fieldMeta.valueType = .json then
        if sourceCol.length < 8 then .error .pastColumn
        else .ok (tmqValueExprNew fieldMeta (some (sourceCol.drop 8)), .json)
      else .ok (tmqValueExprNew fieldMeta none, fieldMeta.valueType)

/-- What `interpret_schema` fills in of the result. -/
structure Interpreted (A : Type) where
  mappings : List SchemaMappingItem
  adaptor : Option A
  needJsonPayload : Bool

/-- A round of the loop of `interpret_schema`. -/
def interpretItem {A : Type} (plugins : PluginsInfo A) (source : EventSource)
    (result : Interpreted A) (item : SelectItem) : Except RuleFailure (Interpreted A) :=
  match columnKind source item.sourceCol with
  | none => .error (setErrorInfo 0
      (sourceText "Event source \"" ++ source.name ++ sourceText "\" has no field named \"" ++
        item.sourceCol ++ sourceText "\""))
  | some kind =>
      match interpretTarget plugins item.targetCol with
      | .error failure => .error failure
      | .ok (adaptor, mapToParameter, mappingName) =>
          if 50 ≤ mappingName.length then .error .longName
          else
            match columnExpr item.sourceCol kind with
            | .error failure => .error failure
            | .ok (valueExpr, mappingType) =>
                .ok
                  { mappings :=
                      result.mappings ++ [⟨valueExpr, mapToParameter, mappingName, mappingType⟩]
                    adaptor := adaptor.or result.adaptor
                    needJsonPayload := result.needJsonPayload || kind.needsJson item.sourceCol }

def interpretSchema {A : Type} (plugins : PluginsInfo A) (source : EventSource)
    (schema : List SelectItem) : Except RuleFailure (Interpreted A) :=
  schema.foldlM (interpretItem plugins source) ⟨[], none, false⟩

/-! ### Rules -/

def readFilter {A : Type} (rule : Bytes) (source : RegisteredSource) (sourceTopic : Option Bytes)
    (interpreted : Interpreted A) (ptr : Bytes) :
    Option (Except RuleFailure (RuleParseResult A)) :=
  match interpreted.adaptor with
  | none => some (.error (setErrorInfo (rule.length - ptr.length)
      (sourceText "Adaptor is not specified")))
  | some adaptor =>
      if ptr = [] then
        some (.ok ⟨interpreted.mappings, adaptor, source, sourceTopic, none,
          interpreted.needJsonPayload⟩)
      else if startsWith whereWord ptr then
        (parseFilterExpression source.eventSource interpreted.needJsonPayload
          (skipBlank (ptr.drop 6))).map fun
          | .error failure => .error (.filter failure)
          | .ok parsed => .ok ⟨interpreted.mappings, adaptor, source, sourceTopic,
              some parsed.root, parsed.needJsonPayload⟩
      else some (.error (syntaxErrorAt rule ptr))

def tmqRuleParse {A : Type} (plugins : PluginsInfo A) (text : Bytes) :
    Option (Except RuleFailure (RuleParseResult A)) :=
  let rule := cstr text
  let ptr := skipBlank rule
  if startsWith selectWord ptr then
    match readColumns (rule.length + 1) (skipBlank (ptr.drop 7)) with
    | none => none
    | some (.error ptr) => some (.error (syntaxErrorAt rule ptr))
    | some (.ok (schema, ptr)) =>
        match readSource rule ptr with
        | .error failure => some (.error failure)
        | .ok (source, sourceTopic, ptr) =>
            match interpretSchema plugins source.eventSource schema with
            | .error failure => some (.error failure)
            | .ok interpreted => readFilter rule source sourceTopic interpreted ptr
  else some (.error (syntaxErrorAt rule ptr))

end RuleParser

end TinyMqtt
