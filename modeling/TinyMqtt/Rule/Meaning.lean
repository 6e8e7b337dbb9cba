import TinyMqtt.Lib.ShuntingYard
import TinyMqtt.Rule.Select
import TinyMqtt.Rule.Tokens

/-!
What rules say, apart from how they are written and from how an event lies in
memory. An event is a record: values by the names of fields and, for a message
with JSON, values by the names of the payload's fields. A filter is a tree of
terms under operators that are orders and connectives. Reading the memory of an
event at the offsets of its own source gives the record.
-/

namespace TinyMqtt

open RuleParser (payloadPrefix payloadField)
open ShuntingYard (Tree)

/-! ### Operators -/

/-- The order of two values of one type: integers by size, strings by bytes. -/
inductive FilterValue.Less : FilterValue → FilterValue → Prop
  | int {n m : Int} : n < m → Less (.int n) (.int m)
  | str {s t : Bytes} : s < t → Less (.str s) (.str t)

inductive FilterValue.Comparable : FilterValue → FilterValue → Prop
  | int (n m : Int) : Comparable (.int n) (.int m)
  | str (s t : Bytes) : Comparable (.str s) (.str t)

/-- A null and a JSON object or array equal nothing. -/
def FilterValue.Plain (v : FilterValue) : Prop := v ≠ .json ∧ v ≠ .null ∧ v ≠ .nullStr

namespace BinaryOp

def Holds : BinaryOp → FilterValue → FilterValue → Prop
  | eq, v, w => v = w ∧ v.Plain
  | gt, v, w => w.Less v
  | gte, v, w => v.Comparable w ∧ ¬v.Less w
  | lt, v, w => v.Less w
  | lte, v, w => v.Comparable w ∧ ¬w.Less v
  | and, v, w => v = .bool true ∧ w = .bool true
  | or, v, w => ∃ a b, v = .bool a ∧ w = .bool b ∧ (a = true ∨ b = true)

end BinaryOp

/-- What a value says on its own: a truth value what it is, an integer whether it
is one or zero in its last eight bits, and a null pointer no. -/
inductive FilterValue.Truth : FilterValue → Bool → Prop
  | bool (b : Bool) : Truth (.bool b) b
  | one {n : Int} : n % 256 = 1 → Truth (.int n) true
  | zero {n : Int} : n % 256 = 0 → Truth (.int n) false
  | nullStr : Truth .nullStr false

/-- A string as the broker's copies are: without a zero byte. -/
def FilterValue.ZeroFree : FilterValue → Prop
  | .str s => 0 ∉ s
  | _ => True

theorem FilterValue.less_int_iff (n m : Int) : Less (.int n) (.int m) ↔ n < m :=
  ⟨fun h => by cases h; assumption, .int⟩

theorem FilterValue.less_str_iff (s t : Bytes) : Less (.str s) (.str t) ↔ s < t :=
  ⟨fun h => by cases h; assumption, .str⟩

theorem strcmpLt_eq {s t : Bytes} (hs : 0 ∉ s) (ht : 0 ∉ t) : strcmpLt s t = decide (s < t) := by
  rw [strcmpLt, (cstr_eq_self_iff s).mpr hs, (cstr_eq_self_iff t).mpr ht]

/-- The comparison of the source computes what the operator says. -/
theorem binaryResult_iff (o : BinaryOp) {v w : FilterValue} (hv : v.ZeroFree) (hw : w.ZeroFree) :
    binaryResult o.info.op v w = true ↔ o.Holds v w := by
  cases v with
  | str s =>
      cases w with
      | str t =>
          have hst := strcmpLt_eq hv hw
          have hts := strcmpLt_eq hw hv
          have hs : cstr s = s := (cstr_eq_self_iff s).mpr hv
          have ht : cstr t = t := (cstr_eq_self_iff t).mpr hw
          have hcomparable := FilterValue.Comparable.str s t
          cases o <;> simp [BinaryOp.info, binaryResult, BinaryOp.Holds, FilterValue.less_str_iff,
            FilterValue.Plain, hst, hts, hs, ht, hcomparable]
      | _ => cases o <;> simp [BinaryOp.info, binaryResult, BinaryOp.Holds] <;> rintro ⟨⟩
  | int n =>
      cases w with
      | int m =>
          have hcomparable := FilterValue.Comparable.int n m
          cases o <;> simp [BinaryOp.info, binaryResult, BinaryOp.Holds, FilterValue.less_int_iff,
            FilterValue.Plain, hcomparable]
      | _ => cases o <;> simp [BinaryOp.info, binaryResult, BinaryOp.Holds] <;> rintro ⟨⟩
  | bool a =>
      cases w with
      | bool b =>
          cases o <;> simp [BinaryOp.info, binaryResult, BinaryOp.Holds, FilterValue.Plain] <;>
            rintro ⟨⟩
      | _ => cases o <;> simp [BinaryOp.info, binaryResult, BinaryOp.Holds] <;> rintro ⟨⟩
  | json =>
      cases o <;> simp [BinaryOp.info, binaryResult, BinaryOp.Holds, FilterValue.Plain] <;>
        rintro ⟨⟩
  | null =>
      cases o <;> simp [BinaryOp.info, binaryResult, BinaryOp.Holds, FilterValue.Plain] <;>
        rintro ⟨⟩
  | nullStr =>
      cases o <;> simp [BinaryOp.info, binaryResult, BinaryOp.Holds, FilterValue.Plain] <;>
        rintro ⟨⟩

/-! ### Records -/

/-- An event's values by the names of its fields, and those of the fields of its
payload. -/
structure EventRecord where
  fields : List (Bytes × FilterValue)
  payload : Bytes → Option FilterValue

def EventRecord.field (record : EventRecord) (name : Bytes) : Option FilterValue :=
  record.fields.lookup name

def stringValue (s : Option Bytes) : FilterValue := s.elim .nullStr fun s => .str (tmqStrNew s)

def payloadValue {J : Type} (getObjectItem : J → Bytes → Option CJsonItem) (json : Option J)
    (name : Bytes) : Option FilterValue :=
  match json.bind (getObjectItem · name) with
  | none => some .null
  | some item => jsonItemValue item

/-- The record of an event. -/
def TmqEvent.record {J : Type} (getObjectItem : J → Bytes → Option CJsonItem) :
    TmqEvent J → EventRecord
  | device offline clientId username =>
      { fields := [(actionField, .int offline.toNat), (clientIdField, stringValue clientId),
          (usernameField, stringValue username)]
        payload := fun _ => none }
  | topic removed name =>
      { fields := [(actionField, .int removed.toNat), (topicField, stringValue name)]
        payload := fun _ => none }
  | subscription unsub clientId username name subQos =>
      { fields := [(actionField, .int unsub.toNat), (clientIdField, stringValue clientId),
          (usernameField, stringValue username), (topicField, stringValue name),
          (subQosField, .int (Int.bmod subQos.toNat 256))]
        payload := fun _ => none }
  | message event =>
      { fields := [(clientIdField, stringValue (some event.clientId)),
          (usernameField, stringValue (some event.username)),
          (qosField, .int (Int.bmod event.qos 256)), (retainField, .int event.retain.toNat)]
        payload := payloadValue getObjectItem event.payloadAsJson }

/-- The sources that are registered for the events whose data they describe. -/
def properSources : List RegisteredSource := [deviceEvents, subscriptionEvents, messageEvents]

theorem bmod_toNat (b : Bool) : Int.bmod b.toNat (2 ^ 32) = b.toNat := by
  cases b <;> rfl

/-- Reading a field of its source at its offset gives the record's value. -/
theorem valueExprEvaluate_record {J : Type} (getObjectItem : J → Bytes → Option CJsonItem)
    {source : RegisteredSource} (hsource : source ∈ properSources) {event : TmqEvent J}
    (hevent : event.type = source.eventType) {field : EventDataField}
    (hfield : field ∈ source.fields) (hjson : field.valueType ≠ .json) (name : Option Bytes) :
    valueExprEvaluate getObjectItem source ⟨field.name, field.valueType⟩ name event
      = (event.record getObjectItem).field field.name := by
  rw [properSources, List.mem_cons, List.mem_cons, List.mem_singleton] at hsource
  rcases hsource with rfl | rfl | rfl
  · cases event with
    | device offline clientId username =>
        simp only [deviceEvents, List.mem_cons, List.not_mem_nil, or_false] at hfield
        rcases hfield with rfl | rfl | rfl
        · exact congrArg (some ∘ FilterValue.int) (bmod_toNat offline)
        · rfl
        · rfl
    | _ => cases hevent
  · cases event with
    | subscription unsub clientId username name subQos =>
        simp only [subscriptionEvents, List.mem_cons, List.not_mem_nil, or_false] at hfield
        rcases hfield with rfl | rfl | rfl | rfl | rfl
        · exact congrArg (some ∘ FilterValue.int) (bmod_toNat unsub)
        · rfl
        · rfl
        · rfl
        · rfl
    | _ => cases hevent
  · cases event with
    | message event =>
        simp only [messageEvents, List.mem_cons, List.not_mem_nil, or_false] at hfield
        rcases hfield with rfl | rfl | rfl | rfl | rfl
        · rfl
        · rfl
        · rfl
        · exact congrArg (some ∘ FilterValue.int) (bmod_toNat event.retain)
        · exact absurd rfl hjson
    | _ => cases hevent

/-- The source `topic` is registered for the events of devices. Its field
`topic` lies where a device event has the client's identifier. -/
theorem valueExprEvaluate_topic {J : Type} (getObjectItem : J → Bytes → Option CJsonItem)
    {event : TmqEvent J} (hevent : event.type = topicEvents.eventType) (name : Option Bytes) :
    valueExprEvaluate getObjectItem topicEvents ⟨topicField, .str⟩ name event
      = (event.record getObjectItem).field clientIdField := by
  cases event with
  | device offline clientId username => rfl
  | _ => cases hevent

/-- The payload's fields of a message. -/
theorem valueExprEvaluate_payload {J : Type} (getObjectItem : J → Bytes → Option CJsonItem)
    {event : TmqEvent J} (hevent : event.type = messageEvents.eventType) (name : Bytes) :
    valueExprEvaluate getObjectItem messageEvents ⟨jsonField, .json⟩ (some name) event
      = (event.record getObjectItem).payload name := by
  cases event with
  | message event => rfl
  | _ => cases hevent

/-! ### Terms -/

inductive Term where
  | field (name : Bytes)
  | payload (name : Bytes)
  | str (s : Bytes)
  | int (v : Int)
  | bool (b : Bool)
  deriving DecidableEq, Repr

def Term.value (record : EventRecord) : Term → Option FilterValue
  | field name => record.field name
  | payload name => record.payload name
  | str s => some (.str s)
  | int v => some (.int v)
  | bool b => some (.bool b)

inductive TermText (source : RegisteredSource) : Term → Bytes → Prop
  | field {f : EventDataField} :
      f ∈ source.fields → f.valueType ≠ .json → TermText source (.field f.name) f.name
  | payload {name : Bytes} :
      source = messageEvents → 0 ∉ name → TermText source (.payload name) (payloadPrefix ++ name)
  | quoted {quote : UInt8} {s : Bytes} :
      quote = 39 ∨ quote = 34 → 0 ∉ s → TermText source (.str s) (quote :: (s ++ [quote]))
  | int {v : Int} {text : Bytes} :
      -2 ^ 63 ≤ v ∧ v < 2 ^ 63 → IsNumeral 10 v text → TermText source (.int v) text

/-- How the terms of operands are written: as in columns, as one of the words
`true` and `false`, or, for a string that could not be read as anything else,
without quotes. -/
inductive OperandText (source : RegisteredSource) : Term → Bytes → Prop
  | term {t : Term} {text : Bytes} : TermText source t text → OperandText source t text
  | trueText : OperandText source (.bool true) trueWord
  | falseText : OperandText source (.bool false) falseWord
  | bare {s : Bytes} : 0 ∉ s → tmqStrToInt s = none → s ≠ trueWord → s ≠ falseWord →
      tmqStrIsString s = false → source.field? s = none → payloadPrefix.isPrefixOf s = false →
      OperandText source (.str s) s

/-! ### Reading terms -/

def isSmallLetter (c : UInt8) : Bool := 97 ≤ c ∧ c ≤ 122

theorem properSources_names {source : RegisteredSource} (hsource : source ∈ properSources) :
    ∀ f ∈ source.fields, f.name.head?.all isSmallLetter = true ∧ f.name ≠ [] ∧
      payloadPrefix.isPrefixOf f.name = false ∧ tmqStrIsString f.name = false ∧
      tmqStrToInt f.name = none ∧ source.field? f.name = some f := by
  revert source
  decide

/-- A text that does not begin with a small letter names no field. -/
theorem field?_of_not_letter {source : RegisteredSource} (hsource : source ∈ properSources)
    {c : UInt8} (hc : isSmallLetter c = false) (rest : Bytes) :
    source.field? (c :: rest) = none ∧ payloadPrefix.isPrefixOf (c :: rest) = false := by
  constructor
  · rw [RegisteredSource.field?, List.find?_eq_none]
    intro f hf hname
    obtain ⟨hhead, -⟩ := properSources_names hsource f hf
    rw [decide_eq_true_iff.mp hname] at hhead
    rw [List.head?_cons, Option.all_some, hc] at hhead
    cases hhead
  · cases hstarts : payloadPrefix.isPrefixOf (c :: rest) with
    | false => rfl
    | true =>
        obtain ⟨tail, htail⟩ := List.isPrefixOf_iff_prefix.mp hstarts
        obtain rfl : (112 : UInt8) = c := Option.some.inj (congrArg List.head? htail)
        cases hc

/-- A text that begins with neither a space nor a sign nor a digit is no
number. -/
theorem tmqStrToInt_of_head {c : UInt8} (hspace : isSpace c = false)
    (hsign : c ≠ 45 ∧ c ≠ 43) (hdigit : isDigit c = false) (rest : Bytes) :
    tmqStrToInt (c :: rest) = none := by
  have hbody : (c :: rest).dropWhile isSpace = c :: rest :=
    List.dropWhile_cons_of_neg (by simp [hspace])
  have htake : (c :: rest).takeWhile isDigit = [] :=
    List.takeWhile_cons_of_neg (by simp [hdigit])
  rw [tmqStrToInt, hbody]
  simp only [List.head?_cons, Option.some.injEq, hsign.1, hsign.2, or_self, if_false, htake,
    if_true, reduceCtorEq]

theorem IsNumeral.head {v : Int} {text : Bytes} (h : IsNumeral 10 v text) :
    ∃ c rest, text = c :: rest ∧ isSmallLetter c = false ∧ c ≠ 39 ∧ c ≠ 34 := by
  obtain ⟨digits, rfl, hlt, -, hne, -⟩ := h
  by_cases hneg : v < 0
  · rw [if_pos hneg]
    exact ⟨45, _, rfl, rfl, by decide, by decide⟩
  · obtain ⟨d, rest, rfl⟩ := List.exists_cons_of_ne_nil hne
    have hd : d < 10 := hlt d List.mem_cons_self
    rw [if_neg hneg]
    refine ⟨digitByte d, rest.map digitByte, rfl, ?_⟩
    clear hne hlt
    interval_cases d <;> exact ⟨rfl, by decide, by decide⟩

theorem tmqStrIsString_of_head {c : UInt8} (hsingle : c ≠ 39) (hdouble : c ≠ 34) (rest : Bytes) :
    tmqStrIsString (c :: rest) = false := by
  simp [tmqStrIsString, hsingle, hdouble]

section Quoted

variable {quote : UInt8} (hquote : quote = 39 ∨ quote = 34)

include hquote

theorem tmqStrIsString_quoted (s : Bytes) : tmqStrIsString (quote :: (s ++ [quote])) = true := by
  have hlast : (quote :: (s ++ [quote])).getLast? = some quote := by
    rw [← List.cons_append, List.getLast?_concat]
  rw [tmqStrIsString, hlast]
  rcases hquote with rfl | rfl <;> simp

theorem tmqStrToInt_quoted (s : Bytes) : tmqStrToInt (quote :: (s ++ [quote])) = none := by
  rcases hquote with rfl | rfl
  · exact tmqStrToInt_of_head rfl (by decide) rfl _
  · exact tmqStrToInt_of_head rfl (by decide) rfl _

theorem tmqConstExprNew_quoted (s : Bytes) :
    tmqConstExprNew (quote :: (s ++ [quote])) = .const (.str (some s)) := by
  have hhead : ∀ word : Bytes, word.head? ≠ some quote → quote :: (s ++ [quote]) ≠ word := by
    rintro word hword rfl
    exact hword rfl
  have htrue : quote :: (s ++ [quote]) ≠ trueWord := by
    apply hhead
    rcases hquote with rfl | rfl <;> decide
  have hfalse : quote :: (s ++ [quote]) ≠ falseWord := by
    apply hhead
    rcases hquote with rfl | rfl <;> decide
  rw [tmqConstExprNew, tmqStrToInt_quoted hquote]
  simp only [htrue, hfalse, if_false, tmqStrIsString_quoted hquote, if_true]
  simp only [tmqStrSubstr, List.length_cons, List.length_append]
  rw [if_neg (by omega), List.drop_succ_cons, List.drop_zero]
  congr 3
  exact List.take_left' (by simp)

end Quoted

theorem tmqConstExprNew_int {v : Int} {text : Bytes} (hrange : -2 ^ 63 ≤ v ∧ v < 2 ^ 63)
    (htext : IsNumeral 10 v text) : tmqConstExprNew text = .const (.int v) := by
  rw [tmqConstExprNew, htext.tmqStrToInt hrange.1 hrange.2]

def Term.isPayload : Term → Bool
  | payload _ => true
  | _ => false

def Gives {J : Type} (getObjectItem : J → Bytes → Option CJsonItem) (source : RegisteredSource)
    (e : FilterExpr) (t : Term) : Prop :=
  ∀ event : TmqEvent J, event.type = source.eventType →
    e.evaluate getObjectItem source event = t.value (event.record getObjectItem)

section Gives

variable {J : Type} (getObjectItem : J → Bytes → Option CJsonItem) {source : RegisteredSource}

theorem gives_payload {name : Bytes} (hzero : 0 ∉ name) :
    Gives getObjectItem messageEvents (tmqValueExprNew ⟨jsonField, .json⟩ (some name))
      (.payload name) := by
  intro event hevent
  rw [tmqValueExprNew, if_pos rfl, Option.getD_some, tmqStrNew_bytes,
    (cstr_eq_self_iff name).mpr hzero, FilterExpr.evaluate]
  exact valueExprEvaluate_payload getObjectItem hevent name

theorem gives_field (hsource : source ∈ properSources) {f : EventDataField}
    (hf : f ∈ source.fields) (hjson : f.valueType ≠ .json) :
    Gives getObjectItem source (tmqValueExprNew ⟨f.name, f.valueType⟩ none) (.field f.name) := by
  intro event hevent
  rw [tmqValueExprNew, if_neg hjson, FilterExpr.evaluate]
  exact valueExprEvaluate_record getObjectItem hsource hevent hf hjson none

theorem gives_str {s : Bytes} (hzero : 0 ∉ s) :
    Gives getObjectItem source (.const (.str (some s))) (.str s) := by
  intro event hevent
  rw [FilterExpr.evaluate, constExprEvaluate, Option.getD_some, tmqStrNew_bytes,
    (cstr_eq_self_iff s).mpr hzero]
  rfl

/-- The text of a term as a source column. -/
theorem TermText.column (hsource : source ∈ properSources) {t : Term} {text : Bytes}
    (h : TermText source t text) :
    ∃ kind e valueType, RuleParser.columnKind source.eventSource text = some kind ∧
      RuleParser.columnExpr text kind = .ok (e, valueType) ∧ Gives getObjectItem source e t ∧
      kind.needsJson text = t.isPayload := by
  cases h with
  | @field f hf hjson =>
      obtain ⟨-, -, hstarts, hstring, hint, hfield⟩ := properSources_names hsource f hf
      refine ⟨.field ⟨f.name, f.valueType⟩, _, f.valueType, ?_, ?_,
        gives_field getObjectItem hsource hf hjson, hstarts⟩
      · rw [RuleParser.columnKind, hstring, hint, hstarts]
        simp only [Bool.false_eq_true, if_false, Option.isSome_none,
          RegisteredSource.fieldsMeta_eventSource, hfield, Option.map_some]
      · rw [RuleParser.columnExpr, if_neg hjson]
  | @payload name hmessage hzero =>
      subst hmessage
      refine ⟨.field ⟨jsonField, .json⟩, _, .json, ?_, ?_, gives_payload getObjectItem hzero, rfl⟩
      · rw [RuleParser.columnKind]
        rfl
      · rw [RuleParser.columnExpr, if_pos rfl, if_neg (by simp [payloadPrefix])]
        rfl
  | @quoted quote s hquote hzero =>
      refine ⟨.const .str, _, .str, ?_, ?_, gives_str getObjectItem hzero, rfl⟩
      · rw [RuleParser.columnKind, if_pos (tmqStrIsString_quoted hquote s)]
      · rw [RuleParser.columnExpr, tmqConstExprNew_quoted hquote]
  | @int v text hrange htext =>
      obtain ⟨c, rest, rfl, -, hsingle, hdouble⟩ := htext.head
      refine ⟨.const .int, .const (.int v), .int, ?_, ?_, ?_, rfl⟩
      · rw [RuleParser.columnKind, tmqStrIsString_of_head hsingle hdouble,
          htext.tmqStrToInt hrange.1 hrange.2]
        rfl
      · rw [RuleParser.columnExpr, tmqConstExprNew_int hrange htext]
      · intro event hevent
        rfl

/-- A text that is neither a field's name nor a payload's field is a constant. -/
theorem operandExpr_const {text : Bytes} (hfield : source.field? text = none)
    (hstarts : payloadPrefix.isPrefixOf text = false) :
    RuleParser.operandExpr source.eventSource text = some (tmqConstExprNew text) := by
  rw [RuleParser.operandExpr, hstarts, if_neg Bool.false_ne_true,
    source.fieldsMeta_eventSource, hfield]
  rfl

theorem operandExpr_of_not_letter (hsource : source ∈ properSources) {c : UInt8}
    (hc : isSmallLetter c = false) (rest : Bytes) :
    RuleParser.operandExpr source.eventSource (c :: rest) = some (tmqConstExprNew (c :: rest)) ∧
      payloadPrefix.isPrefixOf (c :: rest) = false := by
  obtain ⟨hfield, hstarts⟩ := field?_of_not_letter hsource hc rest
  exact ⟨operandExpr_const hfield hstarts, hstarts⟩

theorem TermText.operandExpr (hsource : source ∈ properSources) {t : Term} {text : Bytes}
    (h : TermText source t text) :
    ∃ e, RuleParser.operandExpr source.eventSource text = some e ∧
      Gives getObjectItem source e t ∧ payloadPrefix.isPrefixOf text = t.isPayload := by
  cases h with
  | @field f hf hjson =>
      obtain ⟨-, -, hstarts, -, -, hfield⟩ := properSources_names hsource f hf
      refine ⟨_, ?_, gives_field getObjectItem hsource hf hjson, hstarts⟩
      rw [RuleParser.operandExpr, hstarts, if_neg Bool.false_ne_true,
        source.fieldsMeta_eventSource, hfield]
      rfl
  | @payload name hmessage hzero =>
      subst hmessage
      exact ⟨_, rfl, gives_payload getObjectItem hzero, rfl⟩
  | @quoted quote s hquote hzero =>
      have hletter : isSmallLetter quote = false := by
        rcases hquote with rfl | rfl <;> rfl
      obtain ⟨hexpr, hstarts⟩ := operandExpr_of_not_letter hsource hletter (s ++ [quote])
      rw [tmqConstExprNew_quoted hquote] at hexpr
      exact ⟨_, hexpr, gives_str getObjectItem hzero, hstarts⟩
  | @int v text hrange htext =>
      have hconst := tmqConstExprNew_int hrange htext
      obtain ⟨c, rest, rfl, hletter, -, -⟩ := htext.head
      obtain ⟨hexpr, hstarts⟩ := operandExpr_of_not_letter hsource hletter rest
      rw [hconst] at hexpr
      exact ⟨_, hexpr, fun event hevent => rfl, hstarts⟩

theorem properSources_words {source : RegisteredSource} (hsource : source ∈ properSources) :
    source.field? trueWord = none ∧ source.field? falseWord = none := by
  revert source
  decide

/-- The text of a term as an operand of a filter. -/
theorem OperandText.operandExpr (hsource : source ∈ properSources) {t : Term} {text : Bytes}
    (h : OperandText source t text) :
    ∃ e, RuleParser.operandExpr source.eventSource text = some e ∧
      Gives getObjectItem source e t ∧ payloadPrefix.isPrefixOf text = t.isPayload := by
  cases h with
  | term h => exact h.operandExpr getObjectItem hsource
  | trueText =>
      exact ⟨_, operandExpr_const (properSources_words hsource).1 rfl, fun event hevent => rfl, rfl⟩
  | falseText =>
      exact ⟨_, operandExpr_const (properSources_words hsource).2 rfl, fun event hevent => rfl, rfl⟩
  | bare hzero hint htrue hfalse hstring hfield hstarts =>
      refine ⟨.const (.str (some text)), ?_, gives_str getObjectItem hzero, hstarts⟩
      rw [operandExpr_const hfield hstarts, tmqConstExprNew, hint]
      simp only [htrue, hfalse, hstring, if_false, Bool.false_eq_true]
      rw [tmqStrNew_bytes, (cstr_eq_self_iff _).mpr hzero]

end Gives

end TinyMqtt
