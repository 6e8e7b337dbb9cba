import TinyMqtt.Rule.RuleText

/-!
Rules as a whole: what a rule asks for, its texts, and that the engine's
listener for such a text does on every event of its source what the rule asks
for.
-/

namespace TinyMqtt

open RuleParser
open ShuntingYard (Tree)

/-! ### Rules -/

/-- Where the value of a column goes: to the payload under a name, or to a
parameter of a plugin. -/
inductive Target where
  | value (name : Bytes)
  | parameter (pluginName parameterName : Bytes)
  deriving DecidableEq, Repr

namespace Target

def name : Target → Bytes
  | value name => name
  | parameter _ parameterName => parameterName

def isParameter : Target → Bool
  | value _ => false
  | parameter _ _ => true

def adaptor {A : Type} (plugins : PluginsInfo A) : Target → Option A
  | value _ => none
  | parameter pluginName _ => (plugins pluginName).map (·.adaptor)

/-- The target has a short name, and its plugin is loaded and has the parameter. -/
def Known {A : Type} (plugins : PluginsInfo A) (target : Target) : Prop :=
  target.name.length < 50 ∧
    match target with
    | value _ => True
    | parameter pluginName parameterName =>
        ∃ handle, plugins pluginName = some handle ∧
          handle.adaptorParameters parameterName ≠ none

end Target

structure Column where
  term : Term
  target : Target
  deriving DecidableEq, Repr

def Column.select (record : EventRecord) (column : Column) : Option (Target × FilterValue) :=
  (column.term.value record).map (column.target, ·)

def Filter.readsPayload : Filter → Bool
  | .leaf t => t.isPayload
  | .node _ l r => Filter.readsPayload l || Filter.readsPayload r

/-- A rule: what is selected from which events. -/
structure Rule where
  source : RegisteredSource
  sourceTopic : Option Bytes
  columns : List Column
  filter : Option Filter

namespace Rule

/-- The adaptor of a rule is that of the last column that names one. -/
def adaptor {A : Type} (plugins : PluginsInfo A) (rule : Rule) : Option A :=
  (rule.columns.filterMap fun column => column.target.adaptor plugins).getLast?

def readsPayload (rule : Rule) : Bool :=
  rule.columns.any (·.term.isPayload) || rule.filter.any Filter.readsPayload

def Passes (rule : Rule) (record : EventRecord) : Prop :=
  ∀ filter, rule.filter = some filter → ∃ v, filter.Says record v ∧ v.Truth true

def HoldsBack (rule : Rule) (record : EventRecord) : Prop :=
  ∃ filter, rule.filter = some filter ∧ ∃ v, filter.Says record v ∧ v.Truth false

/-- The parameters of a call: for each name the last value that is selected for
it. -/
def parameters (selected : List (Target × FilterValue)) (name : Bytes) : Option FilterValue :=
  (selected.filterMap fun (target, v) =>
    if target.isParameter ∧ target.name = name then some v else none).getLast?

def payloadValues (selected : List (Target × FilterValue)) : List (Bytes × FilterValue) :=
  selected.filterMap fun (target, v) => if target.isParameter then none else some (target.name, v)

/-- The call that the rule asks for on a record. -/
def Calls {A : Type} (plugins : PluginsInfo A) (rule : Rule) (record : EventRecord)
    (call : AdaptorCall A) : Prop :=
  rule.adaptor plugins = some call.adaptor ∧
    ∃ selected, rule.columns.mapM (Column.select record) = some selected ∧
      call.parameters = parameters selected ∧ call.payloadValues = payloadValues selected

end Rule

/-! ### Texts -/

/-- How a target is written: a name, with or without the prefix of a payload's
field, or a parameter in braces. -/
inductive TargetText : Target → Bytes → Prop
  | name {name : Bytes} : name.head? ≠ some leftBrace → payloadPrefix.isPrefixOf name = false →
      TargetText (.value name) name
  | payload {name : Bytes} : TargetText (.value name) (payloadPrefix ++ name)
  | parameter {pluginName parameterName : Bytes} : pluginName ≠ [] → dot ∉ pluginName →
      parameterName ≠ [] → TargetText (.parameter pluginName parameterName)
        (leftBrace :: ((pluginName ++ dot :: parameterName) ++ [rightBrace]))

/-- The two texts of a column. -/
structure ItemText (source : RegisteredSource) (column : Column) (item : SelectItem) : Prop where
  sourceCol : TermText source column.term item.sourceCol
  targetCol : TargetText column.target item.targetCol

/-- The text after the source: nothing, or `where` and a filter. -/
inductive FilterText (source : RegisteredSource) : Option Filter → Bytes → Prop
  | none : FilterText source none []
  | some {word text : Bytes} (style : Parentheses) (tree : WrittenFilter source) :
      Spells whereWord word → Spaced (style.tokens tree.operands) text →
      FilterText source (some tree.filter) (word ++ text)

inductive RuleText : Rule → Bytes → Prop
  | mk {rule : Rule} {items : List SelectItem}
      {before word after columns sourceText filterText : Bytes} :
      Blanks before → Spells selectWord word → Blanks after →
      List.Forall₂ (ItemText rule.source) rule.columns items →
      ColumnsText sourceText items columns →
      SourceText filterText rule.source rule.sourceTopic sourceText →
      FilterText rule.source rule.filter filterText →
      0 ∉ before ++ (word ++ (after ++ columns)) →
      RuleText rule (before ++ (word ++ (after ++ columns)))

/-! ### Reading the columns -/

section Columns

variable {A : Type} {plugins : PluginsInfo A}

theorem parseParameterColumn_written {pluginName parameterName : Bytes} (hplugin : pluginName ≠ [])
    (hdot : dot ∉ pluginName) (hparameter : parameterName ≠ []) :
    parseParameterColumn (leftBrace :: ((pluginName ++ dot :: parameterName) ++ [rightBrace]))
      = some (pluginName, parameterName) := by
  have hbytes : ∀ c ∈ pluginName, decide (c ≠ dot) = true := by
    intro c hc
    have hne : c ≠ dot := by
      rintro rfl
      exact hdot hc
    simpa using hne
  have hend : EndsAt (fun c => decide (c ≠ dot)) (dot :: parameterName) := by
    intro c hc
    obtain rfl : dot = c := Option.some.inj hc
    rfl
  have hlength := List.length_pos_iff.mpr hplugin
  have hinner : (((leftBrace :: ((pluginName ++ dot :: parameterName) ++ [rightBrace])).drop 1).take
      ((leftBrace :: ((pluginName ++ dot :: parameterName) ++ [rightBrace])).length - 2))
        = pluginName ++ dot :: parameterName := by
    rw [List.drop_succ_cons, List.drop_zero]
    exact List.take_left' (by simp)
  have hlong : ¬(leftBrace :: ((pluginName ++ dot :: parameterName) ++ [rightBrace])).length
      ≤ 2 := by
    simp only [List.length_cons, List.length_append]
    omega
  rw [parseParameterColumn, if_neg hlong, hinner]
  simp only [takeWhile_endsAt hbytes hend, dropWhile_endsAt hbytes hend, hplugin, hparameter,
    List.tail_cons, reduceCtorEq, or_self, if_false]

/-- Reading a target that is written. -/
theorem TargetText.interpretTarget {target : Target} {text : Bytes} (h : TargetText target text)
    (hknown : target.Known plugins) :
    interpretTarget plugins text
      = .ok (target.adaptor plugins, target.isParameter, target.name) := by
  cases h with
  | @name name hhead hstarts =>
      rw [RuleParser.interpretTarget, if_neg (by tauto), hstarts]
      rfl
  | @payload name =>
      rw [RuleParser.interpretTarget, if_neg (by simp [payloadPrefix, leftBrace])]
      rfl
  | @parameter pluginName parameterName hplugin hdot hparameter =>
      obtain ⟨-, handle, hhandle, hhas⟩ := hknown
      obtain ⟨type, htype⟩ := Option.ne_none_iff_exists'.mp hhas
      have hbraces : (leftBrace :: ((pluginName ++ dot :: parameterName) ++ [rightBrace])).head?
            = some leftBrace ∧
          (leftBrace :: ((pluginName ++ dot :: parameterName) ++ [rightBrace])).getLast?
            = some rightBrace := by
        refine ⟨rfl, ?_⟩
        rw [← List.cons_append, List.getLast?_concat]
      rw [RuleParser.interpretTarget, if_pos hbraces,
        parseParameterColumn_written hplugin hdot hparameter]
      simp only [hhandle, htype, Target.adaptor, Option.map_some, Target.isParameter, Target.name]

end Columns

section Reading

variable {A J : Type} {plugins : PluginsInfo A} (getObjectItem : J → Bytes → Option CJsonItem)

structure MappingFor (source : RegisteredSource) (column : Column) (select : SchemaMappingItem) :
    Prop where
  gives : Gives getObjectItem source select.valueExpr column.term
  mapToParameter : select.mapToParameter = column.target.isParameter
  mappingName : select.mappingName = column.target.name

/-- Interpreting one column that is written. -/
theorem ItemText.interpretItem {source : RegisteredSource} (hsource : source ∈ properSources)
    {column : Column} {item : SelectItem} (h : ItemText source column item)
    (hknown : column.target.Known plugins) (start : Interpreted A) :
    ∃ select, MappingFor getObjectItem source column select ∧
      interpretItem plugins source.eventSource start item = .ok
        { mappings := start.mappings ++ [select]
          adaptor := (column.target.adaptor plugins).or start.adaptor
          needJsonPayload := start.needJsonPayload || column.term.isPayload } := by
  obtain ⟨kind, e, valueType, hkind, hexpr, hgives, hpayload⟩ :=
    h.sourceCol.column getObjectItem hsource
  refine ⟨⟨e, column.target.isParameter, column.target.name, valueType⟩, ⟨hgives, rfl, rfl⟩, ?_⟩
  rw [RuleParser.interpretItem, hkind]
  simp only [h.targetCol.interpretTarget hknown, if_neg (Nat.not_le.mpr hknown.1), hexpr]
  rw [← hpayload]

/-- Interpreting columns that are written. -/
theorem foldlM_interpretItem {source : RegisteredSource} (hsource : source ∈ properSources)
    {columns : List Column} {items : List SelectItem}
    (h : List.Forall₂ (ItemText source) columns items)
    (hknown : ∀ column ∈ columns, column.target.Known plugins) (start : Interpreted A) :
    ∃ selects, List.Forall₂ (MappingFor getObjectItem source) columns selects ∧
      items.foldlM (interpretItem plugins source.eventSource) start = .ok
        { mappings := start.mappings ++ selects
          adaptor := (columns.filterMap fun column => column.target.adaptor plugins).getLast?.or
            start.adaptor
          needJsonPayload := start.needJsonPayload || columns.any (·.term.isPayload) } := by
  induction h generalizing start with
  | nil => exact ⟨[], .nil, by simp [pure, Except.pure]⟩
  | @cons column item columns items hitem hitems ih =>
      obtain ⟨hfirst, hrest⟩ := List.forall_mem_cons.mp hknown
      obtain ⟨select, hselect, hstep⟩ := hitem.interpretItem getObjectItem hsource hfirst start
      obtain ⟨selects, hselects, hfold⟩ := ih hrest
        { mappings := start.mappings ++ [select]
          adaptor := (column.target.adaptor plugins).or start.adaptor
          needJsonPayload := start.needJsonPayload || column.term.isPayload }
      refine ⟨select :: selects, .cons hselect hselects, ?_⟩
      rw [List.foldlM_cons, hstep]
      change items.foldlM _ _ = _
      rw [hfold, List.append_assoc, List.singleton_append, List.any_cons, Bool.or_assoc]
      congr 2
      rw [List.filterMap_cons]
      cases column.target.adaptor plugins with
      | none => rfl
      | some adaptor =>
          rw [List.getLast?_cons]
          cases (columns.filterMap fun column => column.target.adaptor plugins).getLast? <;> rfl

/-! ### Reading a rule -/

theorem FilterText.endsAt {source : RegisteredSource} {filter : Option Filter} {text : Bytes}
    (h : FilterText source filter text) : EndsAt isBlank text := by
  cases h with
  | none =>
      intro c hc
      cases hc
  | some style tree hword htext =>
      obtain ⟨c, rest, rfl, hlower⟩ := hword.head
      intro d hd
      obtain rfl : c = d := Option.some.inj hd
      exact (isColumnByte_of_toLower hlower rfl).2

/-- The blanks before a written filter are none of it. -/
theorem RuleParser.Spaced.skipBlank {source : EventSource}
    {ts : List (ShuntingYard.Token (Operand source) BinaryOp)} {text : Bytes}
    (h : Spaced ts text) : Spaced ts (skipBlank text) := by
  cases h with
  | nil hblanks =>
      have hskip : RuleParser.skipBlank text = [] := List.dropWhile_eq_nil_iff.mpr hblanks
      rw [hskip]
      exact .nil (by simp [Blanks])
  | @cons blanks rest ts t hblanks hrest =>
      obtain ⟨c, tail, htext, hblank, -⟩ := tokenText_head t
      have hend : EndsAt isBlank (tokenText t ++ rest) := by
        rw [htext]
        intro d hd
        obtain rfl : c = d := Option.some.inj hd
        exact hblank
      rw [skipBlank_endsAt hblanks hend]
      have hnone : Blanks [] := by simp [Blanks]
      exact .cons t hnone hrest

theorem treeReadsPayload_operands {source : RegisteredSource} (hsource : source ∈ properSources)
    (tree : WrittenFilter source) :
    treeReadsPayload tree.operands = tree.filter.readsPayload := by
  induction tree with
  | leaf a =>
      obtain ⟨e, -, -, hpayload⟩ :=
        a.operandText.operandExpr (fun (_ : Unit) _ => none) hsource
      exact hpayload
  | node o l r ihl ihr =>
      exact congrArg₂ or ihl ihr

/-- An expression has on every event of its source the values of a filter. -/
def FilterFor (source : RegisteredSource) (filter : Filter) (e : FilterExpr) : Prop :=
  ∀ event : TmqEvent J, event.type = source.eventType → ∀ v,
    e.evaluate getObjectItem source event = some v ↔ filter.Says (event.record getObjectItem) v

/-- A listener does what a rule asks for: its expressions give the values of the
rule's terms and filter. -/
structure RuleListener.For (plugins : PluginsInfo A) (rule : Rule) (listener : RuleListener A) :
    Prop where
  source : listener.source = rule.source
  adaptor : rule.adaptor plugins = some listener.adaptor
  needJsonPayload : listener.needJsonPayload = rule.readsPayload
  mappings : List.Forall₂ (MappingFor getObjectItem rule.source) rule.columns listener.mappings
  filter : Option.Rel (FilterFor getObjectItem rule.source) rule.filter listener.filter

/-- What the loaded plugins must offer for a rule. -/
structure Rule.Known (plugins : PluginsInfo A) (rule : Rule) : Prop where
  source : rule.source ∈ properSources
  columns : ∀ column ∈ rule.columns, column.target.Known plugins
  adaptor : rule.adaptor plugins ≠ none

/-- Parsing the text of a rule. -/
theorem RuleText.tmqRuleParse {rule : Rule} {text : Bytes} (h : RuleText rule text)
    (hknown : rule.Known plugins) :
    ∃ result, tmqRuleParse plugins text = some (.ok result) ∧
      result.sourceTopic = rule.sourceTopic ∧
      (makeEventListener result).For getObjectItem plugins rule := by
  obtain ⟨hsource, hcolumns, hadaptor⟩ := hknown
  obtain ⟨hbefore, hword, hafter, hitems, hcols, hsrc, hfilter, hzero⟩ := h
  rename_i items before word after columns sourceText filterText
  obtain ⟨adaptor, hadaptor⟩ := Option.ne_none_iff_exists'.mp hadaptor
  obtain ⟨selects, hselects, hschema⟩ :=
    foldlM_interpretItem getObjectItem hsource hitems hcolumns (⟨[], none, false⟩ : Interpreted A)
  have hstart : EndsAt isBlank (word ++ (after ++ columns)) := by
    obtain ⟨c, tail, rfl, hlower⟩ := hword.head
    intro d hd
    obtain rfl : c = d := Option.some.inj hd
    exact (isColumnByte_of_toLower hlower rfl).2
  have hcolumnsZero : 0 ∉ columns := by
    intro hmem
    apply hzero
    simp [hmem]
  have hlength : items.length ≤ (before ++ (word ++ (after ++ columns))).length + 1 := by
    have := hcols.length_le
    simp only [List.length_append]
    omega
  have hread := hcols.readColumns hsrc.endsAt hcolumnsZero hlength
  have hskip : skipBlank ((word ++ (after ++ columns)).drop 7) = columns := by
    rw [show 7 = selectWord.length from rfl, drop_of_spells hword,
      skipBlank_endsAt hafter hcols.endsAt]
  have hrule : cstr (before ++ (word ++ (after ++ columns)))
      = before ++ (word ++ (after ++ columns)) := (cstr_eq_self_iff _).mpr hzero
  rw [RuleParser.tmqRuleParse, hrule, skipBlank_endsAt hbefore hstart]
  simp only [startsWith_of_spells hword, if_true, hskip, hread,
    hsrc.readSource hfilter.endsAt, interpretSchema, hschema]
  rw [readFilter]
  have hlast : (rule.columns.filterMap fun column => column.target.adaptor plugins).getLast?
      = some adaptor := hadaptor
  simp only [hlast, Option.or_none, List.nil_append, Bool.false_or]
  generalize hasked : rule.filter = filter at hfilter
  cases hfilter with
  | none =>
      refine ⟨_, if_pos rfl, rfl, rfl, hadaptor, ?_, hselects, ?_⟩
      · rw [Rule.readsPayload, hasked]
        exact (Bool.or_false _).symm
      · rw [hasked]
        exact .none
  | @some word text style tree hwhere htext =>
      have hparse := parseFilterExpression_need style tree.operands htext.skipBlank
        (rule.columns.any (·.term.isPayload))
      have hskip : skipBlank ((word ++ text).drop 6) = skipBlank text := by
        rw [show 6 = whereWord.length from rfl, drop_of_spells hwhere]
      have hne : word ++ text ≠ [] := by
        obtain ⟨c, rest, rfl, -⟩ := hwhere.head
        simp
      rw [if_neg hne, startsWith_of_spells hwhere, if_pos rfl, hskip, hparse]
      refine ⟨_, rfl, rfl, rfl, hadaptor, ?_, hselects, ?_⟩
      · rw [Rule.readsPayload, hasked, treeReadsPayload_operands hsource]
        rfl
      · rw [hasked]
        exact .some fun event hevent v => evaluate_iff_says getObjectItem hsource hevent tree v

/-! ### Publishing -/

theorem parameters_cons (target : Target) (v : FilterValue)
    (selected : List (Target × FilterValue)) :
    Rule.parameters ((target, v) :: selected) = fun name =>
      (Rule.parameters selected name).or
        (if target.isParameter ∧ target.name = name then some v else none) := by
  funext name
  rw [Rule.parameters, List.filterMap_cons]
  split
  · rename_i hnone
    simp only [ite_eq_right_iff, reduceCtorEq, imp_false] at hnone
    rw [if_neg hnone, Option.or_none]
    rfl
  · rename_i w hsome
    dsimp only at hsome
    rw [hsome, List.getLast?_cons]
    change some ((Rule.parameters selected name).getD w) = _
    cases Rule.parameters selected name <;> rfl

/-- The loop over the mappings selects the values of the columns. -/
theorem foldlM_onMapping {source : RegisteredSource} {event : TmqEvent J}
    (hevent : event.type = source.eventType) {columns : List Column}
    {selects : List SchemaMappingItem}
    (h : List.Forall₂ (MappingFor getObjectItem source) columns selects)
    (parameters : Bytes → Option FilterValue) (payload : List (Bytes × FilterValue)) :
    selects.foldlM (onMapping getObjectItem source event) (parameters, payload)
      = (columns.mapM (Column.select (event.record getObjectItem))).map fun selected =>
          (fun name => (Rule.parameters selected name).or (parameters name),
            payload ++ Rule.payloadValues selected) := by
  induction h generalizing parameters payload with
  | nil => simp [Rule.parameters, Rule.payloadValues]
  | @cons column select columns selects hselect hselects ih =>
      rw [List.foldlM_cons, List.mapM_cons, onMapping, hselect.gives event hevent,
        hselect.mapToParameter, hselect.mappingName, Column.select]
      cases column.term.value (event.record getObjectItem) with
      | none => rfl
      | some v =>
          simp only [Option.bind_eq_bind, Option.bind_some, Option.map_some, Option.pure_def]
          cases hparameter : column.target.isParameter with
          | true =>
              simp only [if_true, Option.bind_some]
              rw [ih]
              cases columns.mapM (Column.select (event.record getObjectItem)) with
              | none => rfl
              | some selected =>
                  simp only [Option.map_some, Option.bind_some, parameters_cons, hparameter,
                    true_and, Rule.payloadValues, List.filterMap_cons, if_true, Option.some.injEq,
                    Prod.mk.injEq, and_true]
                  funext name
                  rw [Option.or_assoc]
                  congr 1
                  by_cases hname : column.target.name = name
                  · subst hname
                    simp
                  · rw [FiniteMap.set_of_ne _ hname, if_neg hname, Option.none_or]
          | false =>
              simp only [Bool.false_eq_true, if_false, Option.bind_some]
              rw [ih]
              cases columns.mapM (Column.select (event.record getObjectItem)) with
              | none => rfl
              | some selected =>
                  simp [parameters_cons, hparameter, Rule.payloadValues]

/-- The byte that the listener tests says what the value says. -/
theorem FilterValue.boolean_iff (v : FilterValue) (b : Bool) :
    v.boolean = some b ↔ v.Truth b := by
  constructor
  · intro hb
    cases v with
    | bool a =>
        obtain rfl := Option.some.inj hb
        exact .bool a
    | int n =>
        rw [FilterValue.boolean] at hb
        split at hb
        · rename_i hone
          obtain rfl := Option.some.inj hb
          exact .one hone
        · split at hb
          · rename_i hzero
            obtain rfl := Option.some.inj hb
            exact .zero hzero
          · cases hb
    | nullStr =>
        obtain rfl := Option.some.inj hb
        exact .nullStr
    | str _ => cases hb
    | json => cases hb
    | null => cases hb
  · rintro (_ | hone | hzero | _)
    · rfl
    · exact if_pos hone
    · rw [FilterValue.boolean, if_neg (by omega), if_pos hzero]
    · rfl

/-- The listener's test is the rule's. -/
theorem RuleListener.For.passes_iff {rule : Rule} {listener : RuleListener A}
    (h : listener.For getObjectItem plugins rule) {event : TmqEvent J}
    (hevent : event.type = rule.source.eventType) :
    (listener.passes getObjectItem event = some true ↔
        rule.Passes (event.record getObjectItem)) ∧
      (listener.passes getObjectItem event = some false ↔
        rule.HoldsBack (event.record getObjectItem)) := by
  have hfilter := h.filter
  rw [RuleListener.passes, h.source, Rule.Passes, Rule.HoldsBack]
  generalize rule.filter = asked at hfilter
  generalize listener.filter = made at hfilter
  cases hfilter with
  | none => simp
  | @some filter e hfor =>
      have hvalue : ∀ b, (e.evaluate getObjectItem rule.source event).bind FilterValue.boolean
          = some b ↔ ∃ v, filter.Says (event.record getObjectItem) v ∧ v.Truth b := by
        intro b
        rw [Option.bind_eq_some_iff]
        exact exists_congr fun v => and_congr (hfor event hevent v) (v.boolean_iff b)
      simp [hvalue]

/-- A listener for a rule makes on an event of its source the call that the rule
asks for, if the rule lets the event through, and none if the rule holds it
back. -/
theorem RuleListener.For.publish {rule : Rule} {listener : RuleListener A}
    (h : listener.For getObjectItem plugins rule) {event : TmqEvent J}
    (hevent : event.type = rule.source.eventType) :
    (∀ call, tmqListenerPublishEvent getObjectItem listener event = some (some call) ↔
      rule.Passes (event.record getObjectItem) ∧
        rule.Calls plugins (event.record getObjectItem) call) ∧
      (tmqListenerPublishEvent getObjectItem listener event = some none ↔
        rule.HoldsBack (event.record getObjectItem)) := by
  obtain ⟨hpasses, hholds⟩ := h.passes_iff getObjectItem hevent
  have hloop := foldlM_onMapping getObjectItem hevent h.mappings (fun _ => none) []
  rw [← hpasses, ← hholds, tmqListenerPublishEvent, h.source, hloop]
  cases hpass : listener.passes getObjectItem event with
  | none => simp
  | some pass =>
      cases pass with
      | false => simp
      | true =>
          simp only [Option.bind_eq_bind, Option.bind_some, if_true, true_and, Rule.Calls,
            h.adaptor, Option.or_none, List.nil_append]
          cases hselected : rule.columns.mapM (Column.select (event.record getObjectItem)) with
          | none => simp
          | some selected =>
              simp only [Option.map_some, Option.bind_some, Option.pure_def, Option.some.injEq,
                exists_eq_left', reduceCtorEq, Bool.true_eq_false, iff_self, and_true]
              intro call
              constructor
              · rintro rfl
                exact ⟨rfl, rfl, rfl⟩
              · rintro ⟨hadaptor, hparameters, hpayload⟩
                rw [hadaptor, ← hparameters, ← hpayload]

end Reading

/-- `select qos as {p.x} from t where qos>0`. -/
def qosRuleText : Bytes :=
  [] ++ ([115, 101, 108, 101, 99, 116, 32] ++ ([] ++ ([113, 111, 115] ++ ([32] ++ ([97, 115, 32] ++
    ([] ++ ([123, 112, 46, 120, 125] ++ ([32] ++ ([102, 114, 111, 109, 32] ++ ([] ++ ([116] ++
      ([32] ++ ([119, 104, 101, 114, 101, 32] ++ [113, 111, 115, 62, 48])))))))))))))

def qosRule : Rule where
  source := messageEvents
  sourceTopic := some [116]
  columns := [⟨.field qosField, .parameter [112] [120]⟩]
  filter := some (.node .gt (.leaf (.field qosField)) (.leaf (.int 0)))

theorem qosField_ne_nil : qosField ≠ [] :=
  List.cons_ne_nil _ _

theorem operandExpr_qosField :
    operandExpr messageEvents.eventSource qosField = some (.value ⟨qosField, .int⟩ none) :=
  rfl

theorem qosField_plain : ∀ c ∈ qosField, c ≠ 0 ∧ isOperandByte c = true := by
  decide +kernel

theorem qosField_text : OperandText messageEvents (.field qosField) qosField :=
  .term (.field (f := ⟨qosField, .int, 1, 16⟩) (by decide) (by decide))

theorem zero_ne_nil : ([48] : Bytes) ≠ [] :=
  List.cons_ne_nil _ _

theorem operandExpr_zero :
    operandExpr messageEvents.eventSource [48] = some (.const (.int 0)) :=
  rfl

theorem zero_plain : ∀ c ∈ ([48] : Bytes), c ≠ 0 ∧ isOperandByte c = true := by
  decide +kernel

theorem zero_text : OperandText messageEvents (.int 0) [48] :=
  .term (.int (by decide) ⟨[0], rfl, by decide, rfl, by decide, fun _ => rfl⟩)

def qosOperand : WrittenTerm messageEvents where
  term := .field qosField
  operand :=
    { text := qosField, expr := .value ⟨qosField, .int⟩ none, text_ne_nil := qosField_ne_nil,
      plain := qosField_plain, operandExpr_text := operandExpr_qosField }
  operandText := qosField_text

def zeroOperand : WrittenTerm messageEvents where
  term := .int 0
  operand :=
    { text := [48], expr := .const (.int 0), text_ne_nil := zero_ne_nil,
      plain := zero_plain, operandExpr_text := operandExpr_zero }
  operandText := zero_text

theorem qosRule_text : RuleText qosRule qosRuleText := by
  have hcolumn : ItemText messageEvents ⟨.field qosField, .parameter [112] [120]⟩
      ⟨[113, 111, 115], [123, 112, 46, 120, 125]⟩ :=
    ⟨.field (f := ⟨qosField, .int, 1, 16⟩) (by decide) (by decide),
      .parameter (by decide) (by decide) (by decide)⟩
  have hnone : Blanks [] := by decide +kernel
  have hspaced : Spaced (Parentheses.tokens .minimal
      (.node .gt (.leaf qosOperand.operand) (.leaf zeroOperand.operand)))
      [113, 111, 115, 62, 48] :=
    .cons _ hnone (.cons _ hnone (.cons _ hnone (.nil hnone)))
  refine .mk ?_ ?_ ?_ (.cons hcolumn .nil) (.last ?_ ?_ (.renamed ?_ ?_ ?_ ?_ ?_ ?_ ?_ ?_))
    (.topic ?_ ?_ ?_ ?_ ?_)
    (.some .minimal (.node .gt (.leaf qosOperand) (.leaf zeroOperand)) (by decide) hspaced) ?_
  all_goals decide +kernel

section Runs

variable {A J : Type} (getObjectItem : J → Bytes → Option CJsonItem)

/-- The engine takes every text of a rule whose plugins are loaded, and its
listener does on every event of the rule's source what the rule asks for: it
makes the call if the rule lets the event through, and none if the rule holds it
back. -/
theorem written_rule_runs (plugins : PluginsInfo A) (rule : Rule) (text : Bytes)
    (htext : RuleText rule text) (hknown : rule.Known plugins) :
    ∃ result, RuleParser.tmqRuleParse plugins text = some (.ok result) ∧
      (makeEventListener result).needJsonPayload = rule.readsPayload ∧
      ∀ event : TmqEvent J, event.type = rule.source.eventType →
        (∀ call, tmqListenerPublishEvent getObjectItem (makeEventListener result) event
            = some (some call) ↔
          rule.Passes (event.record getObjectItem) ∧
            rule.Calls plugins (event.record getObjectItem) call) ∧
        (tmqListenerPublishEvent getObjectItem (makeEventListener result) event = some none ↔
          rule.HoldsBack (event.record getObjectItem)) := by
  obtain ⟨result, hparse, -, hfor⟩ := htext.tmqRuleParse getObjectItem hknown
  refine ⟨result, hparse, hfor.needJsonPayload, ?_⟩
  intro event hevent
  exact hfor.publish getObjectItem hevent

end Runs

def qosPlugins : PluginsInfo Unit := fun name =>
  if name = [112] then some ⟨(), fun parameter => if parameter = [120] then some .integer else none⟩
  else none

theorem qosRule_known : qosRule.Known qosPlugins := by
  refine ⟨by simp [qosRule, properSources], ?_, by decide⟩
  intro column hcolumn
  obtain rfl := List.mem_singleton.mp hcolumn
  exact ⟨by decide, _, rfl, by decide⟩

/-- A message of quality of service one gets through, one of zero does not. -/
theorem written_rule_runs_qos :
    ∃ result call, RuleParser.tmqRuleParse qosPlugins qosRuleText = some (.ok result) ∧
      tmqListenerPublishEvent (fun (_ : Unit) _ => none) (makeEventListener result)
        (.message ⟨[99], [117], 1, false, none⟩) = some (some call) ∧
      call.parameters [120] = some (.int 1) ∧
      tmqListenerPublishEvent (fun (_ : Unit) _ => none) (makeEventListener result)
        (.message ⟨[99], [117], 0, false, none⟩) = some none := by
  obtain ⟨result, hparse, -, hruns⟩ := written_rule_runs (fun (_ : Unit) _ => none) qosPlugins
    qosRule qosRuleText qosRule_text qosRule_known
  refine ⟨result, ⟨(), Rule.parameters [(.parameter [112] [120], .int 1)], []⟩, hparse, ?_, rfl, ?_⟩
  · refine ((hruns (.message ⟨[99], [117], 1, false, none⟩) rfl).1 _).mpr ⟨?_, rfl, _, rfl, rfl, rfl⟩
    intro filter hfilter
    obtain rfl := Option.some.inj hfilter
    exact ⟨_, .node (.leaf rfl) (.leaf rfl) (iff_of_true rfl (.int (by decide))), .bool true⟩
  · refine (hruns (.message ⟨[99], [117], 0, false, none⟩) rfl).2.mpr ⟨_, rfl, _, ?_, .bool false⟩
    refine .node (.leaf rfl) (.leaf rfl) (iff_of_false (by decide) ?_)
    rw [BinaryOp.Holds, FilterValue.less_int_iff]
    decide

end TinyMqtt
